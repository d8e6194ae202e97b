import NTrade.Kernel.EventBus

/-! What a publish leaves behind: the stack as it was, a history in pre-order, ids handed
down the causal forest, every subscription served once, and one halt of the bus at most. -/
namespace NTrade.Kernel.Bus
open NTrade.Lib

variable {κ η ι : Type*} {maxHistory : Nat}

structure StampedUnder (parent : Option (Event κ ι)) (d : Dispatch κ η ι) : Prop where
  correlation : d.published.correlationId = none →
    d.event.correlationId = parent.elim (some d.event.eventId) Event.correlationId
  causation : d.published.causationId = none → d.event.causationId = parent.map Event.eventId

def callsOf (reached : List (EventClass κ × List η)) : List (EventClass κ × η) :=
  reached.flatMap fun r => r.2.map fun handler => (r.1, handler)

theorem callsOf_append (reached reached' : List (EventClass κ × List η)) :
    callsOf (reached ++ reached') = callsOf reached ++ callsOf reached' := List.flatMap_append

/-- The bus came to every class, the most derived first, and called each handler it found
there, unless an exception went through: then it came so far and no further. -/
structure Dispatch.Served (d : Dispatch κ η ι) : Prop where
  classes : d.reached.map Prod.fst <+: d.event.mro
  calls : d.called <+: callsOf d.reached
  complete : d.exited = false → d.reached.map Prod.fst = d.event.mro ∧ d.called = callsOf d.reached

theorem stampedUnder_stamp (parent : Option (Event κ ι)) (e : Event κ ι) (reached : List (EventClass κ × List η))
    (called : List (EventClass κ × η)) (ownHalt exited : Bool) :
    StampedUnder parent ⟨e, e.stamp parent, reached, called, ownHalt, exited⟩ := by
  constructor
  · intro h
    have h' : e.correlationId = none := h
    cases parent <;> simp [Event.stamp, h']
  · intro h
    have h' : e.causationId = none := h
    simp [Event.stamp, h']

/-- An event published without a correlation id has the one of its publishing event, and so
on down the forest. -/
theorem correlation_inherited {p : Option (Event κ ι)} {f : Forest (Dispatch κ η ι)} {d : Dispatch κ η ι}
    {path : List (Dispatch κ η ι)}
    (hl : f.Linked (fun d => some d.event) StampedUnder p) (hd : f.Descends (d :: path))
    (hu : ∀ e ∈ path, e.published.correlationId = none) : ∀ e ∈ path, e.event.correlationId = d.event.correlationId := by
  apply hd.inherits hl _ hu
  intro x y hxy hy
  exact hxy.correlation hy

section Calls
variable (event : Event κ ι) (haltId : ι) (klass : EventClass κ) (handler : η) {s s' : Loop κ η ι maxHistory}

/-- Counting an error touches the bus and the halt alone. -/
theorem countError_eq : ∃ bus halt, s.countError event haltId = { s with bus := bus, haltEvent := halt } := by
  rw [Loop.countError]
  split
  · exact ⟨_, _, rfl⟩
  · exact ⟨_, _, rfl⟩

theorem callHandler_eq (hx : s.exited = false) : ∃ bus halt exited,
    s.callHandler event haltId klass handler =
      { bus := bus
        reactions := s.reactions.tail
        forest := s.forest ++ (s.reactions.headD silent s.bus).forest
        reached := s.reached
        called := s.called ++ [(klass, handler)]
        haltEvent := halt
        exited := exited } := by
  rw [Loop.callHandler, if_neg (Bool.eq_false_iff.mp hx)]
  dsimp only
  split
  · exact ⟨_, _, _, rfl⟩
  · obtain ⟨bus, halt, he⟩ := countError_eq event haltId
    exact ⟨bus, halt, _, he⟩
  · exact ⟨_, _, _, rfl⟩

/-- A loop that an exception has ended calls nothing. -/
theorem callHandler_of_exited (hx : s.exited = true) : s.callHandler event haltId klass handler = s := if_pos hx

theorem foldl_callHandler (handlers : List η) (hx : s.exited = false)
    (hs : handlers.foldl (fun s handler => s.callHandler event haltId klass handler) s = s') :
    s'.reached = s.reached ∧ (s'.called <+: s.called ++ handlers.map fun handler => (klass, handler)) ∧
      (s'.exited = false → s'.called = s.called ++ handlers.map fun handler => (klass, handler)) := by
  induction handlers generalizing s with
  | nil =>
    subst hs
    simp
  | cons handler handlers ih =>
    obtain ⟨bus, halt, exited, he⟩ := callHandler_eq event haltId klass handler hx
    rw [List.foldl_cons] at hs
    have hr : (s.callHandler event haltId klass handler).reached = s.reached := by rw [he]
    have hc : (s.callHandler event haltId klass handler).called = s.called ++ [(klass, handler)] := by rw [he]
    cases ht : (s.callHandler event haltId klass handler).exited with
    | true =>
      rw [List.foldl_fixed' fun handler => callHandler_of_exited event haltId klass handler ht] at hs
      subst hs
      refine ⟨hr, ?_, fun hf => Bool.noConfusion (ht.symm.trans hf)⟩
      rw [hc]
      exact ⟨_, List.append_assoc _ _ _⟩
    | false =>
      obtain ⟨hr', hp, hc'⟩ := ih ht hs
      rw [hc, List.append_assoc] at hp hc'
      exact ⟨hr'.trans hr, hp, hc'⟩

end Calls

/-- The halts that an optional limit, or an optional halt, still stands for. -/
def owed {α : Type*} (o : Option α) : Nat := o.toList.length

@[simp] theorem owed_none {α : Type*} : owed (none : Option α) = 0 := rfl

@[simp] theorem owed_some {α : Type*} (a : α) : owed (some a) = 1 := rfl

theorem owed_le_one {α : Type*} (o : Option α) : owed o ≤ 1 := by
  cases o with
  | none => exact Nat.zero_le 1
  | some a => exact le_rfl

/-- From `b` to `b'` the bus published `f`. Of the halts it may still publish it owed `m`
before, and it owes `n` after. Under `P` no handler changed the subscriptions, and under `Q`
no exception went through. -/
structure Disciplined [DecidableEq κ] (P Q : Prop) (m n : Nat) (b b' : EventBus κ η ι maxHistory)
    (f : Forest (Dispatch κ η ι)) : Prop where
  stack : b'.stack = b.stack
  history : b'.history = b.history.pushAll (f.preorder.map Dispatch.event)
  stamped : f.Linked (fun d => some d.event) StampedUnder b.stack.head?
  served : ∀ d ∈ f.preorder, d.Served
  halts : f.preorder.countP Dispatch.ownHalt + owed b'.maxHandlerErrors + n ≤ owed b.maxHandlerErrors + m
  subscribers : P → b'.subscribers = b.subscribers
  steady : P → ∀ d ∈ f.preorder, d.reached <+: d.event.mro.map fun klass => (klass, b.handlersOf klass)
  caught : Q → ∀ d ∈ f.preorder, d.exited = false

variable [DecidableEq κ] {P Q : Prop} {l m n : Nat} {b b' b'' : EventBus κ η ι maxHistory} {f g : Forest (Dispatch κ η ι)}

theorem Disciplined.still (hs : b'.stack = b.stack) (hh : b'.history = b.history)
    (he : b'.maxHandlerErrors = b.maxHandlerErrors) (hb : P → b'.subscribers = b.subscribers) :
    Disciplined P Q n n b b' .nil where
  stack := hs
  history := hh
  stamped := trivial
  served := by simp [Forest.preorder]
  halts := by simp [Forest.preorder, he]
  subscribers := hb
  steady := by simp [Forest.preorder]
  caught := by simp [Forest.preorder]

theorem Disciplined.trans (hf : Disciplined P Q l m b b' f) (hg : Disciplined P Q m n b' b'' g) :
    Disciplined P Q l n b b'' (f ++ g) where
  stack := hg.stack.trans hf.stack
  history := by
    rw [hg.history, hf.history, Forest.preorder_append, List.map_append, Deque.pushAll_append]
  stamped := by
    have hs := hg.stamped
    rw [hf.stack] at hs
    exact hf.stamped.append hs
  served := by
    intro d hd
    rw [Forest.preorder_append, List.mem_append] at hd
    exact hd.elim (hf.served d) (hg.served d)
  halts := by
    have h₁ := hf.halts
    have h₂ := hg.halts
    rw [Forest.preorder_append, List.countP_append]
    omega
  subscribers := by
    intro hP
    exact (hg.subscribers hP).trans (hf.subscribers hP)
  steady := by
    intro hP d hd
    have hs := hg.steady hP
    simp only [EventBus.handlersOf, hf.subscribers hP] at hs
    rw [Forest.preorder_append, List.mem_append] at hd
    exact hd.elim (hf.steady hP d) (hs d)
  caught := by
    intro hQ d hd
    rw [Forest.preorder_append, List.mem_append] at hd
    exact hd.elim (hf.caught hQ d) (hg.caught hQ d)

/-- What is owed can be carried along. -/
theorem Disciplined.owing (h : Disciplined P Q 0 0 b b' f) : Disciplined P Q n n b b' f where
  stack := h.stack
  history := h.history
  stamped := h.stamped
  served := h.served
  halts := by
    have hh := h.halts
    omega
  subscribers := h.subscribers
  steady := h.steady
  caught := h.caught

/-- What the outside code of a reaction may do to the bus. -/
structure Lawful (P Q : Prop) (r : Reaction κ η ι maxHistory) : Prop where
  disciplined : ∀ b, Disciplined P Q 0 0 b (r b).bus (r b).forest
  ending : Q → ∀ b, (r b).ending ≠ .exited

theorem silent_lawful : Lawful P Q (silent : Reaction κ η ι maxHistory) where
  disciplined _ := .still rfl rfl rfl fun _ => rfl
  ending _ _ := nofun

section Loops
variable (event : Event κ ι) (haltId : ι) (klass : EventClass κ) (handler : η) (s : Loop κ η ι maxHistory)

/-- Counting an error turns the limit into the halt that is owed, if it halts at all. -/
theorem countError_disciplined (h : Disciplined P Q 0 (owed s.haltEvent) b s.bus s.forest) :
    Disciplined P Q 0 (owed (s.countError event haltId).haltEvent) b (s.countError event haltId).bus
      (s.countError event haltId).forest := by
  have hh := h.halts
  rw [Loop.countError]
  split
  · exact ⟨h.stack, h.history, h.stamped, h.served, hh, h.subscribers, h.steady, h.caught⟩
  · next limit hl =>
    refine ⟨h.stack, h.history, h.stamped, h.served, ?_, h.subscribers, h.steady, h.caught⟩
    rw [(Option.filter_eq_some_iff.mp hl).1, owed_some] at hh
    simp only [owed_none, owed_some]
    omega

structure Obeys (P Q : Prop) (b : EventBus κ η ι maxHistory) (s : Loop κ η ι maxHistory) : Prop where
  reactions : ∀ r ∈ s.reactions, Lawful P Q r
  disciplined : Disciplined P Q 0 (owed s.haltEvent) b s.bus s.forest
  caught : Q → s.exited = false

theorem countError_obeys (h : Obeys P Q b s) : Obeys P Q b (s.countError event haltId) := by
  have hd := countError_disciplined event haltId s h.disciplined
  obtain ⟨bus, halt, he⟩ := countError_eq event haltId (s := s)
  rw [he] at hd ⊢
  exact ⟨h.reactions, hd, h.caught⟩

theorem callHandler_obeys (h : Obeys P Q b s) : Obeys P Q b (s.callHandler event haltId klass handler) := by
  have hr : Lawful P Q (s.reactions.headD silent) := by
    cases hs : s.reactions with
    | nil => exact silent_lawful
    | cons r rest => exact h.reactions r (hs ▸ List.mem_cons_self)
  have ht : ∀ r ∈ s.reactions.tail, Lawful P Q r := fun r hm => h.reactions r (List.mem_of_mem_tail hm)
  have ho := h.disciplined.trans (hr.disciplined s.bus).owing
  rw [Loop.callHandler]
  split
  · exact h
  · dsimp only
    split
    · exact ⟨ht, ho, h.caught⟩
    · exact countError_obeys _ _ _ ⟨ht, ho, h.caught⟩
    · next he => exact ⟨ht, ho, fun hQ => absurd he (hr.ending hQ s.bus)⟩

end Loops

section Classes
variable (event : Event κ ι) (haltId : ι) (s : Loop κ η ι maxHistory)

theorem reachClass_of_exited (klass : EventClass κ) (hx : s.exited = true) : s.reachClass event haltId klass = s :=
  if_pos hx

theorem reachClass_spec {s s' : Loop κ η ι maxHistory} {klass : EventClass κ} (hx : s.exited = false)
    (hs : s.reachClass event haltId klass = s') :
    s'.reached = s.reached ++ [(klass, s.bus.handlersOf klass)] ∧
      (s'.called <+: s.called ++ callsOf [(klass, s.bus.handlersOf klass)]) ∧
      (s'.exited = false → s'.called = s.called ++ callsOf [(klass, s.bus.handlersOf klass)]) := by
  rw [Loop.reachClass, if_neg (Bool.eq_false_iff.mp hx)] at hs
  have hc := foldl_callHandler event haltId klass (s.bus.handlersOf klass)
    (s := { s with reached := s.reached ++ [(klass, s.bus.handlersOf klass)] }) hx hs
  rw [callsOf, List.flatMap_singleton]
  exact hc

theorem reachClass_obeys (klass : EventClass κ) (h : Obeys P Q b s) : Obeys P Q b (s.reachClass event haltId klass) := by
  have hr : Obeys P Q b { s with reached := s.reached ++ [(klass, s.bus.handlersOf klass)] } :=
    ⟨h.reactions, h.disciplined, h.caught⟩
  rw [Loop.reachClass]
  split
  · exact h
  · apply List.foldlRecOn _ _ hr
    intro s hs handler _
    exact callHandler_obeys event haltId klass handler s hs

theorem foldl_reachClass_obeys (mro : List (EventClass κ)) (h : Obeys P Q b s) :
    Obeys P Q b (mro.foldl (fun s klass => s.reachClass event haltId klass) s) := by
  apply List.foldlRecOn _ _ h
  intro s hs klass _
  exact reachClass_obeys event haltId s klass hs

theorem foldl_reachClass_served {s s' : Loop κ η ι maxHistory} (mro : List (EventClass κ)) (hx : s.exited = false)
    (hc : s.called = callsOf s.reached)
    (hs : mro.foldl (fun s klass => s.reachClass event haltId klass) s = s') :
    (s'.reached.map Prod.fst <+: s.reached.map Prod.fst ++ mro) ∧ (s'.called <+: callsOf s'.reached) ∧
      (s'.exited = false →
        s'.reached.map Prod.fst = s.reached.map Prod.fst ++ mro ∧ s'.called = callsOf s'.reached) := by
  induction mro generalizing s with
  | nil =>
    subst hs
    simp [hc]
  | cons klass mro ih =>
    obtain ⟨hr, hp, hd⟩ := reachClass_spec event haltId hx rfl
    rw [hc, ← callsOf_append, ← hr] at hp hd
    have hk : (s.reachClass event haltId klass).reached.map Prod.fst = s.reached.map Prod.fst ++ [klass] := by
      rw [hr, List.map_append]
      rfl
    rw [List.foldl_cons] at hs
    cases ht : (s.reachClass event haltId klass).exited with
    | true =>
      rw [List.foldl_fixed' fun klass' => reachClass_of_exited event haltId _ klass' ht] at hs
      subst hs
      refine ⟨?_, hp, fun hf => Bool.noConfusion (ht.symm.trans hf)⟩
      rw [hk]
      exact ⟨_, List.append_assoc _ _ _⟩
    | false =>
      obtain ⟨hm, hp', hd'⟩ := ih ht (hd ht) hs
      rw [hk, List.append_assoc] at hm hd'
      exact ⟨hm, hp', hd'⟩

/-- Where no handler changes the subscriptions, the bus finds at each class what was there at the start. -/
theorem foldl_reachClass_steady (hP : P) (mro : List (EventClass κ)) (h : Obeys P Q b s) :
    (mro.foldl (fun s klass => s.reachClass event haltId klass) s).reached <+:
      s.reached ++ mro.map fun klass => (klass, b.handlersOf klass) := by
  induction mro generalizing s with
  | nil => simp
  | cons klass mro ih =>
    rw [List.foldl_cons]
    cases hx : s.exited with
    | true =>
      rw [List.foldl_fixed' fun klass' => reachClass_of_exited event haltId _ klass' ?_,
        reachClass_of_exited event haltId s klass hx]
      · exact List.prefix_append _ _
      · rw [reachClass_of_exited event haltId s klass hx]
        exact hx
    | false =>
      have hk : s.bus.handlersOf klass = b.handlersOf klass := by
        rw [EventBus.handlersOf, h.disciplined.subscribers hP]
        rfl
      have hp := ih _ (reachClass_obeys event haltId s klass h)
      rw [(reachClass_spec event haltId hx rfl).1, hk, List.append_assoc] at hp
      exact hp

end Classes

section Publishes
variable (e : Event κ ι) (haltId : ι) {reactions haltReactions : List (Reaction κ η ι maxHistory)}

/-- One dispatch, the halt of the bus paid for by the debt for it. -/
theorem dispatch_disciplined (ownHalt : Bool) (b : EventBus κ η ι maxHistory) (hr : ∀ r ∈ reactions, Lawful P Q r) :
    Disciplined P Q ownHalt.toNat (owed (b.dispatch ownHalt e reactions haltId).2) b
      (b.dispatch ownHalt e reactions haltId).1.bus (b.dispatch ownHalt e reactions haltId).1.forest := by
  unfold EventBus.dispatch
  extract_lets event pushed s
  have h0 : Obeys P Q pushed ({ bus := pushed, reactions := reactions } : Loop κ η ι maxHistory) :=
    ⟨hr, .still rfl rfl rfl fun _ => rfl, fun _ => rfl⟩
  have hs : Obeys P Q pushed s := foldl_reachClass_obeys event haltId _ event.mro h0
  obtain ⟨hclasses, hcalls, hcomplete⟩ :=
    foldl_reachClass_served (s := { bus := pushed, reactions := reactions }) event haltId event.mro rfl rfl rfl
  have hd := hs.disciplined
  constructor
  · exact congrArg List.tail hd.stack
  · rw [hd.history, Forest.preorder, Forest.preorder, List.append_nil]
    rfl
  · exact ⟨stampedUnder_stamp _ _ _ _ _ _, hd.stamped, trivial⟩
  · intro d hm
    rw [Forest.preorder, Forest.preorder, List.append_nil] at hm
    rcases List.mem_cons.mp hm with rfl | hm
    · exact ⟨hclasses, hcalls, hcomplete⟩
    · exact hd.served d hm
  · have hh : s.forest.preorder.countP Dispatch.ownHalt + owed s.bus.maxHandlerErrors + owed s.haltEvent ≤
        owed b.maxHandlerErrors + 0 := hd.halts
    have ho : owed (if s.exited then none else s.haltEvent) ≤ owed s.haltEvent := by
      split
      · exact Nat.zero_le _
      · exact le_rfl
    rw [Forest.preorder, Forest.preorder, List.append_nil, List.countP_cons]
    cases ownHalt
    · show s.forest.preorder.countP Dispatch.ownHalt + 0 + owed s.bus.maxHandlerErrors +
        owed (if s.exited then none else s.haltEvent) ≤ owed b.maxHandlerErrors + 0
      omega
    · show s.forest.preorder.countP Dispatch.ownHalt + 1 + owed s.bus.maxHandlerErrors +
        owed (if s.exited then none else s.haltEvent) ≤ owed b.maxHandlerErrors + 1
      omega
  · exact hd.subscribers
  · intro hP d hm
    rw [Forest.preorder, Forest.preorder, List.append_nil] at hm
    rcases List.mem_cons.mp hm with rfl | hm
    · have hst := foldl_reachClass_steady event haltId _ hP event.mro h0
      exact hst
    · exact hd.steady hP d hm
  · intro hQ d hm
    rw [Forest.preorder, Forest.preorder, List.append_nil] at hm
    rcases List.mem_cons.mp hm with rfl | hm
    · exact hs.caught hQ
    · exact hd.caught hQ d hm

/-- The dispatch of a halt owes no further one. -/
theorem halt_owes_nothing (hb : owed b.maxHandlerErrors = 0) (hr : ∀ r ∈ reactions, Lawful P Q r) :
    (b.dispatch true e reactions haltId).2 = none := by
  have hh := (dispatch_disciplined e haltId true b hr).halts
  have hc : 1 ≤ (b.dispatch true e reactions haltId).1.forest.preorder.countP Dispatch.ownHalt := by
    rw [EventBus.dispatch, Forest.preorder, List.countP_cons_of_pos rfl]
    omega
  have ho : owed (b.dispatch true e reactions haltId).2 = 0 := by
    rw [Bool.toNat_true] at hh
    omega
  exact Option.toList_eq_nil_iff.mp (List.length_eq_zero_iff.mp ho)

theorem publish_disciplined (b : EventBus κ η ι maxHistory) (hr : ∀ r ∈ reactions, Lawful P Q r)
    (hh : ∀ r ∈ haltReactions, Lawful P Q r) :
    Disciplined P Q 0 0 b (b.publish e reactions haltId haltReactions).bus
      (b.publish e reactions haltId haltReactions).forest := by
  have hd := dispatch_disciplined e haltId false b hr
  rw [EventBus.publish]
  split
  · next o ho =>
    rw [ho] at hd
    exact hd
  · next o halt ho =>
    rw [ho] at hd
    have hw := dispatch_disciplined halt haltId true o.bus hh
    have hn : (o.bus.dispatch true halt haltReactions haltId).2 = none := by
      apply halt_owes_nothing _ _ _ hh
      have hs : o.forest.preorder.countP Dispatch.ownHalt + owed o.bus.maxHandlerErrors + 1 ≤
          owed b.maxHandlerErrors + 0 := hd.halts
      have hb := owed_le_one b.maxHandlerErrors
      omega
    rw [hn] at hw
    exact hd.trans hw

end Publishes

section Runs
variable [DecidableEq η]

mutual

/-- At any depth, subscriptions change only if they may, and calls end only as they may. -/
def Script.within (changes : Bool) (ends : Ending → Bool) : Script κ η ι → Bool
  | .done ending => ends ending
  | .publish _ calls _ haltCalls rest =>
    Script.allWithin changes ends calls && Script.allWithin changes ends haltCalls && rest.within changes ends
  | .subscribe _ _ rest => changes && rest.within changes ends
  | .unsubscribe _ _ rest => changes && rest.within changes ends

def Script.allWithin (changes : Bool) (ends : Ending → Bool) : List (Script κ η ι) → Bool
  | [] => true
  | script :: scripts => script.within changes ends && Script.allWithin changes ends scripts

end

def Script.isStatic (script : Script κ η ι) : Bool := script.within false fun _ => true

/-- What handlers raise are exceptions that the bus catches. -/
def Script.isOrdinary (script : Script κ η ι) : Bool := script.within true (· ≠ .exited)

private def Fits (P Q : Prop) (script : Script κ η ι) : Prop := (P → script.isStatic) ∧ (Q → script.isOrdinary)

private def AllFit (P Q : Prop) (scripts : List (Script κ η ι)) : Prop :=
  (P → Script.allWithin false (fun _ => true) scripts) ∧ (Q → Script.allWithin true (· ≠ .exited) scripts)

mutual

/-- Every handler, publishing to any depth and raising at any point, is lawful. -/
theorem run_lawful : ∀ script : Script κ η ι, Fits P Q script → Lawful P Q (script.run : Reaction κ η ι maxHistory)
  | .done ending, h => by
    rw [Script.run]
    refine ⟨fun b => .still rfl rfl rfl fun _ => rfl, ?_⟩
    intro hQ b
    have he := h.2 hQ
    rw [Script.isOrdinary, Script.within] at he
    exact of_decide_eq_true he
  | .publish e calls haltId haltCalls rest, ⟨hP, hQ⟩ => by
    simp only [Script.isStatic, Script.isOrdinary, Script.within, Bool.and_eq_true] at hP hQ
    have hrest := run_lawful rest ⟨fun h => (hP h).2, fun h => (hQ h).2⟩
    have hcalls := reactions_lawful calls ⟨fun h => (hP h).1.1, fun h => (hQ h).1.1⟩
    have hhalt := reactions_lawful haltCalls ⟨fun h => (hP h).1.2, fun h => (hQ h).1.2⟩
    rw [Script.run]
    refine ⟨?_, fun hQ b => hrest.ending hQ _⟩
    intro b
    exact (publish_disciplined e haltId b hcalls hhalt).trans (hrest.disciplined _)
  | .subscribe eventType handler rest, ⟨hP, hQ⟩ => by
    have hn : ¬ P := fun h => Bool.false_ne_true (hP h)
    have hrest := run_lawful rest ⟨fun h => absurd h hn, hQ⟩
    rw [Script.run]
    refine ⟨?_, fun hQ b => hrest.ending hQ _⟩
    intro b
    have hs : Disciplined P Q 0 0 b (b.subscribe eventType handler) .nil := .still rfl rfl rfl fun h => absurd h hn
    exact hs.trans (hrest.disciplined _)
  | .unsubscribe eventType handler rest, ⟨hP, hQ⟩ => by
    have hn : ¬ P := fun h => Bool.false_ne_true (hP h)
    have hrest := run_lawful rest ⟨fun h => absurd h hn, hQ⟩
    rw [Script.run]
    refine ⟨?_, fun hQ b => hrest.ending hQ _⟩
    intro b
    have hs : Disciplined P Q 0 0 b (b.unsubscribe eventType handler) .nil := .still rfl rfl rfl fun h => absurd h hn
    exact hs.trans (hrest.disciplined _)

theorem reactions_lawful : ∀ scripts : List (Script κ η ι), AllFit P Q scripts →
    ∀ r ∈ (Script.reactions scripts : List (Reaction κ η ι maxHistory)), Lawful P Q r
  | [], _ => by
    intro r hr
    rw [Script.reactions] at hr
    exact absurd hr List.not_mem_nil
  | script :: scripts, ⟨hP, hQ⟩ => by
    intro r hr
    simp only [Script.allWithin, Bool.and_eq_true] at hP hQ
    rw [Script.reactions] at hr
    rcases List.mem_cons.mp hr with rfl | hr
    · exact run_lawful script ⟨fun h => (hP h).1, fun h => (hQ h).1⟩
    · exact reactions_lawful scripts ⟨fun h => (hP h).2, fun h => (hQ h).2⟩ r hr

end

/-- Whatever the handlers do, from any bus: the stack is as it was, the history has grown by
the events in pre-order, each event is stamped under its publishing event, and each handler
that stands at a class when the bus comes to it is called for it once, in the order of the
classes, to the end where what handlers raise is caught. A new bus publishes one halt of
its own at most. -/
theorem dispatch_discipline (b : EventBus κ η ι maxHistory) (limit : Option Nat) (script : Script κ η ι) :
    (script.run b).bus.stack = b.stack ∧
    (∀ d ∈ (script.run b).forest.preorder, d.Served) ∧
    (script.isOrdinary → ∀ d ∈ (script.run b).forest.preorder, d.exited = false) ∧
    (script.isOrdinary → script.isStatic → ∀ d ∈ (script.run b).forest.preorder,
      d.called = callsOf (d.event.mro.map fun klass => (klass, b.handlersOf klass))) ∧
    (script.run b).forest.Linked (fun d => some d.event) StampedUnder b.stack.head? ∧
    (∀ d path, (script.run b).forest.Descends (d :: path) → (∀ e ∈ path, e.published.correlationId = none) →
      ∀ e ∈ path, e.event.correlationId = d.event.correlationId) ∧
    (∀ d path, (script.run (EventBus.init limit : EventBus κ η ι maxHistory)).forest.Descends (d :: path) →
      (∀ e ∈ d :: path, e.published.correlationId = none) →
      ∀ e ∈ d :: path, e.event.correlationId = some d.event.eventId) ∧
    (let events := (script.run b).forest.preorder.map Dispatch.event
    (script.run b).bus.history.items =
      (b.history.items ++ events).drop ((b.history.items ++ events).length - maxHistory)) ∧
    (script.run (EventBus.init limit : EventBus κ η ι maxHistory)).forest.preorder.countP Dispatch.ownHalt ≤ 1 := by
  have hb := (run_lawful (P := script.isStatic) (Q := script.isOrdinary) script ⟨id, id⟩).disciplined b
  have h0 := (run_lawful (P := False) (Q := False) script ⟨False.elim, False.elim⟩).disciplined
    (EventBus.init limit : EventBus κ η ι maxHistory)
  refine ⟨hb.stack, hb.served, hb.caught, ?_, hb.stamped, ?_, ?_, ?_, ?_⟩
  · intro hQ hP d hd
    obtain ⟨hclasses, hcalls⟩ := (hb.served d hd).complete (hb.caught hQ d hd)
    have hlen : d.reached.length = (d.event.mro.map fun klass => (klass, b.handlersOf klass)).length := by
      rw [List.length_map, ← hclasses, List.length_map]
    rw [hcalls, (hb.steady hP d hd).eq_of_length hlen]
  · intro d path hd hu
    exact correlation_inherited hb.stamped hd hu
  · intro d path hd hu e he
    have hroot : d.event.correlationId = some d.event.eventId :=
      ((hd.isChain h0.stamped).2 d rfl).correlation (hu d List.mem_cons_self)
    rcases List.mem_cons.mp he with rfl | he
    · exact hroot
    · exact (correlation_inherited h0.stamped hd (fun e he => hu e (List.mem_cons_of_mem _ he)) e he).trans hroot
  · rw [hb.history, Deque.items_pushAll]
  · have hh := h0.halts
    have hl := owed_le_one limit
    have hi : owed (EventBus.init limit : EventBus κ η ι maxHistory).maxHandlerErrors = owed limit := rfl
    omega

end Runs

private def eventNamed (name : String) (id : Nat) (correlationId : Option Nat) : Event String Nat where
  mro := [.other name, .event, .object]
  ts := 0
  eventId := id
  correlationId := correlationId

private def chainScript (quoteCorrelation : Option Nat) : Script String Nat Nat :=
  .publish (eventNamed "TickEvent" 1 none)
    [.publish (eventNamed "QuoteUpdatedEvent" 2 quoteCorrelation)
      [.publish (eventNamed "SignalGeneratedEvent" 3 none) [] 9 [] (.done .raised)] 9 [] (.done .returned)] 9 []
    (.done .returned)

private def chainBus : EventBus String Nat Nat 10000 :=
  ((EventBus.init (some 100)).subscribe (.other "TickEvent") 0).subscribe (.other "QuoteUpdatedEvent") 1

/-- The handlers of the chain are called as they stood before it. -/
theorem chain_called : ∀ d ∈ ((chainScript none).run chainBus).forest.preorder,
    d.called = callsOf (d.event.mro.map fun klass => (klass, chainBus.handlersOf klass)) :=
  (dispatch_discipline chainBus none (chainScript none)).2.2.2.1 rfl rfl

/-- A handler with two classes is called twice for one event, one that is unsubscribed on the
way is not called at all, nor is one behind an exception that goes through, and under an
event with a correlation id of its own an event has that id and not the root's. -/
theorem twice_none_and_own_id :
    (((chainScript none).run (chainBus.subscribe .event 0)).forest.preorder.map
      fun d => (d.called.map Prod.snd).count 0) = [2, 1, 1] ∧
    (((Script.publish (eventNamed "TickEvent" 1 none) [.unsubscribe .event 2 (.done .returned)] 9 [] (.done .returned)).run
      (chainBus.subscribe .event 2)).forest.preorder.map fun d => (d.called.map Prod.snd).count 2) = [0] ∧
    (((Script.publish (eventNamed "TickEvent" 1 none) [.done .exited] 9 [] (.done .exited)).run
      (chainBus.subscribe .event 2)).forest.preorder.map fun d => (d.called.map Prod.snd).count 2) = [0] ∧
    (((chainScript (some 7)).run chainBus).forest.preorder.map
      fun d => (d.published.correlationId, d.event.correlationId)) =
        [(none, some 1), (some 7, some 7), (none, some 7)] :=
  ⟨rfl, rfl, rfl, rfl⟩

end NTrade.Kernel.Bus
