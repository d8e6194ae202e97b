import NTrade.Execution.Charges
import Mathlib.Algebra.BigOperators.Ring.List
import Mathlib.Algebra.BigOperators.Ring.Finset
import Mathlib.Algebra.Order.Archimedean.Basic
import Mathlib.Tactic.LinearCombination

/-! Charges and the way an order was filled: what the parts of an order are charged together,
against what one fill of all of it would be. -/
namespace NTrade.Execution
open NTrade.Domain NTrade.Events NTrade.Lib

def CommissionModel.charge (commission : CommissionModel) (notional : Rat) : Rat :=
  round (commission.apply notional) PRICE_PRECISION

/-- In every run the fills of an order of this size, all at this price, are charged together the commission of
one fill, and its statutory charge up to a rounding unit for each. -/
def SplitFree (commission : CommissionModel) (statutory : Option IndianStatutoryCosts) (price : Rat) (quantity : Int) :
    Prop :=
  ∀ cfg : Config, cfg.commission = commission → cfg.statutory = statutory →
    ∀ (steps : List Step) (orderId : String) (intent : OrderIntent),
      let fills := fillsOf orderId (run cfg steps {}).trace
      let single := commissionOf cfg (price * quantity)
      fills ≠ [] → (∀ f ∈ fills, f.symbol = intent.symbol ∧ f.side = intent.side ∧ f.fillPrice = price) →
      (fills.map OrderFilled.quantity).sum = quantity →
      (fills.map OrderFilled.commission).sum = single ∧
        |(fills.map OrderFilled.statutory).sum - statutoryOf cfg intent (price * quantity) single| ≤
          fills.length * (1 / 10 ^ PRICE_PRECISION)

def CommissionModel.Proportional (commission : CommissionModel) (price : Rat) (quantity : Int) : Prop :=
  ∀ n : Nat, 0 < n → (n : Int) ≤ quantity → commission.charge (price * n) = n * commission.charge price

theorem commissionOf_eq (cfg : Config) (notional : Rat) : commissionOf cfg notional = cfg.commission.charge notional := rfl

section Sums

variable {commission : CommissionModel} {price : Rat} {quantity : Int}

/-- Where shares are charged alike, parts are charged what the whole is. -/
theorem CommissionModel.Proportional.sum_eq (h : commission.Proportional price quantity) {qs : List Int}
    (hne : qs ≠ []) (hpos : ∀ q ∈ qs, 0 < q) (hsum : qs.sum = quantity) :
    (qs.map fun q : Int => commission.charge (price * q)).sum = commission.charge (price * quantity) := by
  have hle : ∀ q ∈ qs, q ≤ quantity := by
    rw [← hsum]
    exact List.single_le_sum fun q hq => (hpos q hq).le
  have hcharge : ∀ q : Int, 0 < q → q ≤ quantity → commission.charge (price * q) = q * commission.charge price := by
    intro q hq hle
    lift q to Nat using hq.le
    rw [Int.cast_natCast]
    exact h q (by omega) hle
  have hmap : (qs.map fun q : Int => commission.charge (price * q)) = qs.map fun q : Int => (q : Rat) * commission.charge price := by
    apply List.map_congr_left
    intro q hq
    exact hcharge q (hpos q hq) (hle q hq)
  obtain ⟨q, hq⟩ := List.exists_mem_of_ne_nil qs hne
  rw [hmap, hcharge quantity ((hpos q hq).trans_le (hle q hq)) le_rfl, List.sum_map_mul_right, ← hsum, Int.cast_list_sum]

theorem sum_totalCost (c : IndianStatutoryCosts) (side : String) (price : Rat) (parts : List (Int × Rat)) :
    (parts.map fun p => c.totalCost (price * p.1) side (some p.2)).sum =
      c.totalCost (price * (parts.map Prod.fst).sum) side (some (parts.map Prod.snd).sum) := by
  induction parts with
  | nil => simp [c.totalCost_some 0 0]
  | cons p parts ih =>
    rw [List.map_cons, List.sum_cons, ih, List.map_cons, List.sum_cons, List.map_cons, List.sum_cons,
      c.totalCost_some, c.totalCost_some (_ * _) (List.sum _), c.totalCost_some (_ * _) (p.2 + _)]
    push_cast
    ring

end Sums

section Runs
variable {cfg : Config} {intent : OrderIntent} {price : Rat} {fills : List OrderFilled}

/-- The schedule that a target applies to the legs of an order. -/
private theorem exists_model {c : IndianStatutoryCosts} (hst : cfg.statutory = some c) (intent : OrderIntent) :
    ∃ model : IndianStatutoryCosts, ∀ notional commission : Rat, statutoryOf cfg intent notional commission =
      round (model.totalCost notional intent.side (some commission)) PRICE_PRECISION := by
  cases hi : cfg.instrument intent.symbol with
  | none => exact ⟨c, fun notional commission => by rw [statutoryOf, hst, hi]⟩
  | some instrument =>
    exact ⟨c.forInstrument instrument none, fun notional commission => by rw [statutoryOf, hst, hi]⟩

/-- The statutory charges of parts whose commissions add up are those of the whole up to a unit for each. -/
theorem abs_sum_statutory_sub_le (hne : fills ≠ []) (hc : ∀ f ∈ fills, Charges cfg f)
    (halike : ∀ f ∈ fills, f.symbol = intent.symbol ∧ f.side = intent.side ∧ f.fillPrice = price) :
    |(fills.map OrderFilled.statutory).sum -
        statutoryOf cfg intent (price * (fills.map OrderFilled.quantity).sum) (fills.map OrderFilled.commission).sum| ≤
      fills.length * (1 / 10 ^ PRICE_PRECISION) := by
  cases hst : cfg.statutory with
  | none =>
    have hzero : ∀ f ∈ fills, f.statutory = 0 := by
      intro f hf
      rw [(hc f hf).statutory intent (halike f hf).1 (halike f hf).2.1, statutoryOf, hst]
    rw [statutoryOf, hst, List.map_congr_left hzero]
    simp only [List.map_const', List.sum_replicate, nsmul_zero, sub_zero, abs_zero]
    positivity
  | some c =>
    obtain ⟨model, hof⟩ := exists_model hst intent
    let parts := fills.map fun f => (f.quantity, f.commission)
    have hmap : fills.map OrderFilled.statutory =
        (parts.map fun p => model.totalCost (price * p.1) intent.side (some p.2)).map fun x => round x PRICE_PRECISION := by
      rw [List.map_map, List.map_map]
      apply List.map_congr_left
      intro f hf
      obtain ⟨hs, hd, hp⟩ := halike f hf
      rw [(hc f hf).statutory intent hs hd, hof, hp]
      rfl
    have hq : fills.map OrderFilled.quantity = parts.map Prod.fst := by rw [List.map_map]; rfl
    have hcom : fills.map OrderFilled.commission = parts.map Prod.snd := by rw [List.map_map]; rfl
    have hsum := abs_sum_round_sub_le (parts.map fun p => model.totalCost (price * p.1) intent.side (some p.2)) PRICE_PRECISION
    have hone := abs_round_sub_le (model.totalCost (price * (parts.map Prod.fst).sum) intent.side
      (some (parts.map Prod.snd).sum)) PRICE_PRECISION
    rw [sum_totalCost, List.length_map, List.length_map] at hsum
    rw [hmap, hof, hq, hcom]
    have hlen : (1 : Rat) ≤ fills.length := by exact_mod_cast List.length_pos_iff.mpr hne
    have hunit : (0 : Rat) < 1 / 2 / 10 ^ PRICE_PRECISION := by positivity
    calc
      _ ≤ (fills.length : Rat) * (1 / 2 / 10 ^ PRICE_PRECISION) + 1 / 2 / 10 ^ PRICE_PRECISION := by
        rw [abs_sub_comm] at hone
        exact (abs_sub_le _ _ _).trans (add_le_add hsum hone)
      _ ≤ fills.length * (1 / 2 / 10 ^ PRICE_PRECISION) + fills.length * (1 / 2 / 10 ^ PRICE_PRECISION) := by
        apply add_le_add_right
        exact le_mul_of_one_le_left hunit.le hlen
      _ = fills.length * (1 / 10 ^ PRICE_PRECISION) := by ring

/-- Where shares are charged alike, how an order was filled does not matter. -/
theorem splitFree_of_proportional {commission : CommissionModel} {statutory : Option IndianStatutoryCosts}
    {quantity : Int} (h : 0 < price → commission.Proportional price quantity) :
    SplitFree commission statutory price quantity := by
  intro cfg hcom hst steps orderId intent
  extract_lets fills single
  intro hne halike hsum
  have hc : ∀ f ∈ fills, Charges cfg f := fun f hf => charges_of_mem_fillsOf steps hf
  obtain ⟨g, hg⟩ := List.exists_mem_of_ne_nil fills hne
  have hprice : 0 < price := (halike g hg).2.2 ▸ (hc g hg).price
  have hmap : fills.map OrderFilled.commission =
      (fills.map OrderFilled.quantity).map fun q : Int => commission.charge (price * q) := by
    rw [List.map_map]
    apply List.map_congr_left
    intro f hf
    rw [(hc f hf).commission, (halike f hf).2.2, commissionOf_eq, hcom]
    rfl
  have htotal : (fills.map OrderFilled.commission).sum = single := by
    rw [hmap]
    refine ((h hprice).sum_eq (by simpa using hne) ?_ hsum).trans ?_
    · intro q hq
      obtain ⟨f, hf, rfl⟩ := List.mem_map.mp hq
      exact (hc f hf).quantity
    · rw [← hcom]
      rfl
  refine ⟨htotal, ?_⟩
  have hle := abs_sum_statutory_sub_le hne hc halike
  rwa [hsum, htotal] at hle

end Runs

section Parts
variable {cfg : Config} {w : World} {r : Record} {fills : List OrderFilled}

private structure Holds (w : World) (r : Record) (fills : List OrderFilled) : Prop where
  entries : w.exec.openOrders.entries = [("V1", r)]
  closed : w.exec.breaker.state = .closed
  fills : fillsOf "V1" w.trace = fills

private theorem fillsOf_concat (t : List Obs) (o : Obs) :
    fillsOf "V1" (t ++ [o]) = fillsOf "V1" t ++ (o.fillFor "V1").toList := by
  rw [fillsOf, List.filterMap_append]
  cases ho : o.fillFor "V1" with
  | none => simp [fillsOf, ho]
  | some f => simp [fillsOf, ho]

private theorem Holds.record (h : Holds w r fills) : w.record "V1" = some r := by
  rw [World.record, Dict.get, h.entries]
  rfl

private theorem Holds.log (h : Holds w r fills) {o : Obs} (ho : o.fillFor "V1" = none) : Holds (w.log o) r fills := by
  refine ⟨h.entries, h.closed, ?_⟩
  rw [World.log, fillsOf_concat, ho, h.fills]
  exact List.append_nil _

private theorem Holds.update (h : Holds w r fills) (f : Record → Record) {o : Obs} (ho : o.fillFor "V1" = none) :
    Holds (w.update "V1" f o) (f r) fills := by
  refine ⟨?_, h.closed, (h.log ho).fills⟩
  rw [World.update, World.log_exec, World.setOpen]
  dsimp only [Dict.modify]
  rw [h.entries]
  rfl

private theorem Holds.publish (h : Holds w r fills) (e : Event) :
    Holds (w.publish e (runActs cfg [])) r (fills ++ ((Obs.event ⟨w.stamp, e⟩).fillFor "V1").toList) := by
  refine ⟨h.entries, h.closed, ?_⟩
  rw [← h.fills]
  exact fillsOf_concat w.trace (.event ⟨w.stamp, e⟩)

private theorem Holds.checkStatus (h : Holds w r fills) {i : PollInput} (hi : i.onUpdated = []) :
    ∃ r', Holds (checkStatus cfg "V1" i w) r' fills ∧ r'.order = r.order ∧ r'.filled = r.filled ∧ r'.intent = r.intent := by
  rw [Execution.checkStatus, h.record]
  dsimp only
  split
  · exact ⟨r, h.log rfl, rfl, rfl, rfl⟩
  · have hn : Holds (w.update "V1" Record.note (.noted "V1" r.order.status)) r.note fills := h.update Record.note rfl
    have hp := @Holds.publish cfg _ _ _ hn (.updated (r.updateOf "V1" i.now))
    rw [hi]
    exact ⟨r.note, by simpa [Obs.fillFor] using hp, rfl, rfl, rfl⟩

private theorem Holds.checkFill (h : Holds w r fills) {i : PollInput} (hi : i.onFilled = []) {f : OrderFilled}
    (hf : r.fillOf cfg "V1" i.now = some f) :
    Holds (checkFill cfg "V1" i w) (r.book f.quantity) (fills ++ [f]) := by
  have hid : f.orderId = "V1" := (fillOf_eq_some hf).1
  rw [Execution.checkFill, h.record]
  dsimp only
  rw [emitFill, h.record]
  dsimp only
  rw [show fillOf cfg "V1" r.intent r.order (((some r).map Record.filled).getD 0) i.now = some f from hf, hi]
  have hp := @Holds.publish cfg _ _ _ h (.filled f)
  rw [show (Obs.event ⟨w.stamp, .filled f⟩).fillFor "V1" = some f from if_pos hid] at hp
  have he : Holds ((w.publish (.filled f) (runActs cfg [])).emit (.filled f)) r (fills ++ [f]) :=
    ⟨hp.entries, hp.closed, hp.fills⟩
  exact @Holds.update _ _ _ he (·.book f.quantity) (.booked "V1" f.quantity) rfl

/-- A record that has `q` more shares to book is filled by them, at the reported average. -/
private theorem exists_fill {q : Int} {price : Rat} (hq : 0 < q) (hp : 0 < price) (now : Rat)
    (hqty : toInt r.order.filledQty = r.filled + q) (havg : r.order.avgPrice = some price) :
    ∃ f, r.fillOf cfg "V1" now = some f ∧ f.quantity = q ∧ f.symbol = r.intent.symbol ∧ f.side = r.intent.side ∧
      f.fillPrice = price := by
  have hnew : toInt r.order.filledQty - r.filled = q := by omega
  have hprice : fillPrice r.intent r.order.avgPrice = price := by
    rw [havg]
    exact if_neg hp.ne'
  rw [Record.fillOf, fillOf]
  dsimp only
  rw [hnew, hprice, if_neg (not_le.mpr hq), if_neg (not_le.mpr hp)]
  exact ⟨_, rfl, rfl, rfl, rfl, rfl⟩

private def partly (n : Int) (price : Rat) : PollInput where
  refresh := .ok ⟨.partiallyFilled, some n, some price⟩

/-- A poll that finds more of the order filled puts one more fill on record. -/
private theorem Holds.poll (h : Holds w r fills) {q : Int} {price : Rat} (hq : 0 < q) (hp : 0 < price) :
    ∃ r' f, Holds (poll cfg (fun _ => partly (r.filled + q) price) w) r' (fills ++ [f]) ∧ r'.filled = r.filled + q ∧
      r'.intent = r.intent ∧ f.quantity = q ∧ f.symbol = r.intent.symbol ∧ f.side = r.intent.side ∧
      f.fillPrice = price := by
  let report : Report := ⟨.partiallyFilled, some ((r.filled + q : Int) : Rat), some price⟩
  have hkeys : w.exec.openOrders.keys = ["V1"] := by rw [Dict.keys, h.entries]; rfl
  have h₀ : Holds { w with emitted := [] } r fills := ⟨h.entries, h.closed, h.fills⟩
  have hopen : ¬ w.exec.breaker.state = .open := by rw [h.closed]; decide
  have hask : Holds (({ w with emitted := [] } : World).log (.asked "V1")) r fills := h₀.log rfl
  let w₁ := (({ w with emitted := [] } : World).log (.asked "V1")).setBreaker w.exec.breaker.onSuccess
  have h₁ : Holds w₁ r fills := by
    refine ⟨hask.entries, ?_, hask.fills⟩
    have hb : w.exec.breaker.onSuccess.state = .closed := by
      rw [CircuitBreaker.onSuccess]
      split
      · exact h.closed
      · rfl
    exact hb
  let w₂ := w₁.update "V1" (·.refresh report) (.status "V1" report)
  have h₂ : Holds w₂ (r.refresh report) fills := @Holds.update _ _ _ h₁ (·.refresh report) (.status "V1" report) rfl
  let i := partly (r.filled + q) price
  have htimeout : checkTimeout cfg "V1" i w₂ = w₂ := by
    rw [checkTimeout, h₂.record]
    rfl
  obtain ⟨r₃, h₃, horder, hfilled, hintent⟩ := @Holds.checkStatus cfg _ _ _ h₂ i rfl
  obtain ⟨f, hf, hfq, hfs, hfd, hfp⟩ := @exists_fill cfg r₃ q price hq hp 0
    (by rw [horder, hfilled]; exact toInt_intCast _) (by rw [horder]; rfl)
  have h₄ := @Holds.checkFill cfg _ _ _ h₃ i rfl f hf
  have hkept : (r₃.book f.quantity).order.status = .partiallyFilled := by rw [Record.book_order, horder]; rfl
  have h₅ : Holds (settle cfg "V1" i (Execution.checkFill cfg "V1" i (Execution.checkStatus cfg "V1" i w₂)))
      (r₃.book f.quantity) (fills ++ [f]) := by
    rw [settle, h₄.record]
    dsimp only
    rw [hkept]
    exact h₄.log rfl
  refine ⟨r₃.book f.quantity, f, ?_, ?_, hintent, hfq, hfs.trans (congrArg _ hintent), hfd.trans (congrArg _ hintent), hfp⟩
  · rw [Execution.poll, hkeys, List.foldl_cons, List.foldl_nil, pollOne, h₀.record]
    dsimp only
    rw [if_neg hopen, refresh]
    rw [← htimeout] at h₅
    exact h₅
  · rw [Record.book_filled, hfilled, hfq]
    rfl

private def stockWith (commission : CommissionModel) (statutory : Option IndianStatutoryCosts) : Config :=
  { oneStock with commission, statutory }

private def placement : Step := .submit marketBuy none (.placed (some "V1") ⟨.pending, some 0, some 0⟩) 0 [] []

private theorem request_marketBuy : request ⟨"TCS", "NSE", .equity, true⟩ marketBuy =
    .ok { side := .buy, quantity := 10, orderType := .market, tradeType := .cnc } := by
  decide +kernel

private theorem holds_placement (commission : CommissionModel) (statutory : Option IndianStatutoryCosts) :
    ∃ r, Holds (step (stockWith commission statutory) {} placement) r [] ∧ r.filled = 0 ∧ r.intent = marketBuy := by
  let w : World :=
    { exec := { idem := { reserved := [0] } }, issued := 1, trace := [.submitted none marketBuy 0 none] }
  have hstep : step (stockWith commission statutory) {} placement =
      (place (stockWith commission statutory) ⟨"TCS", "NSE", .equity, true⟩ marketBuy 0
        (.placed (some "V1") ⟨.pending, some 0, some 0⟩) 0 (runActs _ []) (runActs _ []) w).1 := rfl
  rw [hstep, place.eq_def, request_marketBuy]
  exact ⟨_, ⟨rfl, rfl, rfl⟩, rfl, rfl⟩

/-- Any way of filling an order in parts is the end of a run. -/
private theorem exists_run (commission : CommissionModel) (statutory : Option IndianStatutoryCosts) {price : Rat}
    (hp : 0 < price) (qs : List Int) (hpos : ∀ q ∈ qs, 0 < q) :
    ∃ steps r fills, Holds (run (stockWith commission statutory) steps {}) r fills ∧ r.intent = marketBuy ∧
      fills.map OrderFilled.quantity = qs ∧
      ∀ f ∈ fills, f.symbol = marketBuy.symbol ∧ f.side = marketBuy.side ∧ f.fillPrice = price := by
  induction qs using List.reverseRecOn with
  | nil =>
    obtain ⟨r, h, -, hi⟩ := holds_placement commission statutory
    exact ⟨[placement], r, [], h, hi, rfl, by simp⟩
  | append_singleton qs q ih =>
    obtain ⟨steps, r, fills, h, hi, hqs, halike⟩ := ih fun a ha => hpos a (List.mem_append_left _ ha)
    obtain ⟨r', f, h', -, hi', hq, hs, hd, hprice⟩ :=
      @Holds.poll (stockWith commission statutory) _ _ _ h q price (hpos q (by simp)) hp
    refine ⟨steps ++ [Step.poll fun _ => partly (r.filled + q) price], r', fills ++ [f], ?_, hi'.trans hi, ?_, ?_⟩
    · rw [run, List.foldl_concat]
      exact h'
    · rw [List.map_append, hqs, List.map_singleton, hq]
    · intro g hg
      rcases List.mem_append.mp hg with hg | hg
      · exact halike g hg
      · obtain rfl := List.mem_singleton.mp hg
        rw [hi] at hs hd
        exact ⟨hs, hd, hprice⟩

/-- What freedom from the split says of one way to fill an order. -/
private theorem SplitFree.sum_eq {commission : CommissionModel} {statutory : Option IndianStatutoryCosts} {price : Rat}
    {quantity : Int} (h : SplitFree commission statutory price quantity) (hp : 0 < price) {qs : List Int} (hne : qs ≠ [])
    (hpos : ∀ q ∈ qs, 0 < q) (hsum : qs.sum = quantity) :
    (qs.map fun q : Int => commission.charge (price * q)).sum = commission.charge (price * quantity) := by
  obtain ⟨steps, r, fills, hrun, -, hqs, halike⟩ := exists_run commission statutory hp qs hpos
  have hf := hrun.fills
  have hmap : fills.map OrderFilled.commission = qs.map fun q : Int => commission.charge (price * q) := by
    rw [← hqs, List.map_map]
    apply List.map_congr_left
    intro f hm
    have hc : Charges (stockWith commission statutory) f := charges_of_mem_fillsOf steps (hf ▸ hm)
    rw [hc.commission, (halike f hm).2.2]
    rfl
  have hfree := h (stockWith commission statutory) rfl rfl steps "V1" marketBuy
  dsimp only at hfree
  rw [hf] at hfree
  have hnil : fills ≠ [] := by
    rintro rfl
    exact hne hqs.symm
  obtain ⟨hcom, -⟩ := hfree hnil halike (hqs ▸ hsum)
  rw [← hmap, hcom]
  rfl

end Parts

/-- Freedom from the split is proportionality, for every commission model. -/
theorem splitFree_iff_proportional (commission : CommissionModel) (statutory : Option IndianStatutoryCosts) (price : Rat)
    (quantity : Int) :
    SplitFree commission statutory price quantity ↔ (0 < price → commission.Proportional price quantity) := by
  constructor
  · intro h hp n hn hle
    have hones : ∀ k : Nat, ((List.replicate k (1 : Int)).map fun q : Int => commission.charge (price * q)).sum =
        k * commission.charge price := by
      intro k
      rw [List.map_replicate, List.sum_replicate, nsmul_eq_mul, Int.cast_one, mul_one]
    -- the whole order share by share, and the same with the first `n` shares at once
    lift quantity to Nat using by omega with k
    have hall := @SplitFree.sum_eq _ _ _ _ h hp (List.replicate k 1) (by simp; omega) (by simp) (by simp)
    have hpart := @SplitFree.sum_eq _ _ _ _ h hp ((n : Int) :: List.replicate (k - n) 1) (by simp) (by simp; omega)
      (by simp; omega)
    rw [hones] at hall
    rw [List.map_cons, List.sum_cons, hones, ← hall, Nat.cast_sub (by omega)] at hpart
    rw [Int.cast_natCast] at hpart
    linarith
  · exact splitFree_of_proportional

section Models
variable {price : Rat} {quantity : Int}

/-- A flat amount is charged once for each part. -/
theorem proportional_flat (amount : Rat) :
    (FlatCommission amount).Proportional price quantity ↔ quantity ≤ 1 ∨ round amount PRICE_PRECISION = 0 := by
  constructor
  · intro h
    by_contra hne
    obtain ⟨hq, hr⟩ := not_or.mp hne
    have h2 : round amount PRICE_PRECISION = ((2 : Nat) : Rat) * round amount PRICE_PRECISION := h 2 (by decide) (by omega)
    apply hr
    push_cast at h2
    linarith
  · rintro (hq | hr) n hn hle
    · obtain rfl : n = 1 := by omega
      rw [Nat.cast_one, mul_one, one_mul]
    · have hc : ∀ notional, (FlatCommission amount).charge notional = 0 := fun _ => hr
      rw [hc, hc, mul_zero]

/-- A value whose multiples stay bounded is zero. -/
private theorem eq_zero_of_nat_mul_le {x b : Rat} (h : ∀ n : Nat, 0 < n → n * |x| ≤ b) : x = 0 := by
  by_contra hx
  have hpos : 0 < |x| := abs_pos.mpr hx
  obtain ⟨n, hn⟩ := exists_nat_gt (b / |x|)
  have hb : b < n * |x| := (div_lt_iff₀ hpos).mp hn
  have hle := h (n + 1) (Nat.succ_pos n)
  rw [Nat.cast_succ, add_mul, one_mul] at hle
  linarith

private theorem charge_percentage (pct minimum : Rat) (n : Nat) :
    (PercentageCommission pct minimum).charge (price * n) = round (max (n * (price * pct)) minimum) PRICE_PRECISION := by
  rw [CommissionModel.charge, PercentageCommission]
  dsimp only
  rw [mul_right_comm, mul_comm (price * pct)]

private theorem charge_percentage_one (pct minimum : Rat) :
    (PercentageCommission pct minimum).charge price = round (max (price * pct) minimum) PRICE_PRECISION := rfl

/-- When a percentage with a minimum charges every share alike: a negative one must leave nothing to charge, any
other must be exact on one share. -/
def ExactPercentage (pct minimum price : Rat) : Prop :=
  if price * pct < 0 then round minimum PRICE_PRECISION = 0
  else round (max (price * pct) minimum) PRICE_PRECISION = price * pct

/-- A charge is as near to its percentage as the minimum and the rounding allow. -/
private theorem abs_round_max_sub_le {x m : Rat} (hx : 0 ≤ x) :
    |round (max x m) PRICE_PRECISION - x| ≤ 1 / 2 / 10 ^ PRICE_PRECISION + |m| := by
  have hr := abs_le.mp (abs_round_sub_le (max x m) PRICE_PRECISION)
  have hm := le_abs_self m
  have h0 := abs_nonneg m
  rw [abs_le]
  rcases max_cases x m with ⟨he, _⟩ | ⟨he, hlt⟩ <;> rw [he] at hr ⊢ <;> constructor <;> linarith

private theorem abs_round_max_le {x m : Rat} (hx : x < 0) :
    |round (max x m) PRICE_PRECISION| ≤ 1 / 2 / 10 ^ PRICE_PRECISION + |m| := by
  have hr := abs_le.mp (abs_round_sub_le (max x m) PRICE_PRECISION)
  have hm := neg_abs_le m
  have hm' := le_abs_self m
  have h0 := abs_nonneg m
  rw [abs_le]
  rcases max_cases x m with ⟨he, _⟩ | ⟨he, hlt⟩ <;> rw [he] at hr ⊢ <;> constructor <;> linarith

private theorem exact_of_proportional {pct minimum : Rat}
    (h : ∀ n : Nat, 0 < n → (PercentageCommission pct minimum).charge (price * n) =
      n * (PercentageCommission pct minimum).charge price) : ExactPercentage pct minimum price := by
  have hn : ∀ n : Nat, 0 < n → round (max (n * (price * pct)) minimum) PRICE_PRECISION =
      n * round (max (price * pct) minimum) PRICE_PRECISION := by
    intro n hn
    rw [← charge_percentage, h n hn]
    rfl
  rw [ExactPercentage]
  generalize price * pct = x at hn
  split
  · next hx =>
    -- a negative percentage runs into the minimum, whatever it is
    have hr : round (max x minimum) PRICE_PRECISION = 0 := by
      apply eq_zero_of_nat_mul_le
      intro n hpos
      have hnx : (n : Rat) * x < 0 := mul_neg_of_pos_of_neg (Nat.cast_pos.mpr hpos) hx
      have hle := abs_round_max_le (m := minimum) hnx
      rwa [hn n hpos, abs_mul, Nat.abs_cast] at hle
    obtain ⟨n, hlt⟩ := exists_nat_gt (minimum / x)
    have hmin : ((n + 1 : Nat) : Rat) * x ≤ minimum := by
      have := (div_lt_iff_of_neg hx).mp hlt
      push_cast
      linarith
    have hround := hn (n + 1) (Nat.succ_pos n)
    rwa [max_eq_right hmin, hr, mul_zero] at hround
  · next hx =>
    have hx := not_lt.mp hx
    apply sub_eq_zero.mp
    apply eq_zero_of_nat_mul_le
    intro n hpos
    have hle := abs_round_max_sub_le (m := minimum) (mul_nonneg (Nat.cast_nonneg n) hx)
    rwa [hn n hpos, ← mul_sub, abs_mul, Nat.abs_cast] at hle

private theorem proportional_of_exact {pct minimum : Rat} (h : ExactPercentage pct minimum price) (n : Nat) (hn : 0 < n) :
    (PercentageCommission pct minimum).charge (price * n) = n * (PercentageCommission pct minimum).charge price := by
  rw [charge_percentage, charge_percentage_one]
  rw [ExactPercentage] at h
  generalize price * pct = x at h
  have hn1 : (1 : Rat) ≤ n := by exact_mod_cast hn
  split_ifs at h with hx
  · have hzero : ∀ y : Rat, y < 0 → round (max y minimum) PRICE_PRECISION = 0 := by
      intro y hy
      rcases max_cases y minimum with ⟨he, hle⟩ | ⟨he, -⟩
      · have h0 : round 0 PRICE_PRECISION = 0 := by decide +kernel
        have hlo := round_mono hle PRICE_PRECISION
        have hhi := round_mono hy.le PRICE_PRECISION
        rw [he]
        linarith
      · rw [he, h]
    rw [hzero _ (mul_neg_of_pos_of_neg (by linarith) hx), hzero x hx, mul_zero]
  · have hx := not_lt.mp hx
    rw [h]
    have hgrid : (n : Rat) * x ∈ grid PRICE_PRECISION := by
      have hm := mul_intCast_mem (h ▸ round_mem (max x minimum) PRICE_PRECISION) n
      rwa [mul_comm, Int.cast_natCast] at hm
    rcases max_cases ((n : Rat) * x) minimum with ⟨he, -⟩ | ⟨he, hlt⟩
    · rw [he, round_of_mem hgrid]
    · -- the minimum is above the percentage, yet rounds to it: there is one share, or nothing to charge
      have hle : x ≤ (n : Rat) * x := le_mul_of_one_le_left hx hn1
      rw [max_eq_right (hle.trans hlt.le)] at h
      have hmono := round_mono hlt.le PRICE_PRECISION
      rw [round_of_mem hgrid, h] at hmono
      rw [he, h]
      linarith

end Models

/-- Charges and the way an order is filled. For any commission model they are free of it at a price and size exactly
when each share up to that size is charged what a single share is. For the two models of the source: a flat
amount never is, unless there is one share only or the amount rounds to nothing; a percentage with a minimum
is, for every size, exactly when it is exact on one share and above its minimum. -/
theorem split_free_iff (statutory : Option IndianStatutoryCosts) (price : Rat) :
    (∀ commission quantity, SplitFree commission statutory price quantity ↔
      (0 < price → commission.Proportional price quantity)) ∧
    (∀ amount quantity, SplitFree (FlatCommission amount) statutory price quantity ↔
      price ≤ 0 ∨ quantity ≤ 1 ∨ round amount PRICE_PRECISION = 0) ∧
    (∀ pct minimum, (∀ quantity, SplitFree (PercentageCommission pct minimum) statutory price quantity) ↔
      price ≤ 0 ∨ ExactPercentage pct minimum price) := by
  refine ⟨fun commission quantity => splitFree_iff_proportional commission statutory price quantity, ?_, ?_⟩
  · intro amount quantity
    rw [splitFree_iff_proportional, proportional_flat, ← @not_lt _ _ 0 price]
    exact imp_iff_not_or
  · intro pct minimum
    rw [← not_lt, ← imp_iff_not_or]
    constructor
    · intro h hp
      apply exact_of_proportional
      intro n hn
      exact (splitFree_iff_proportional _ _ _ _).mp (h n) hp n hn le_rfl
    · intro h quantity
      rw [splitFree_iff_proportional]
      intro hp n hn hle
      exact proportional_of_exact (h hp) n hn

/-- Ten shares at 100 under a flat 20 for an order, filled as four and six: 40 is charged. -/
theorem flat_commission_charged_twice : ¬ SplitFree (FlatCommission 20) (some IndianStatutoryCosts.default) 100 10 := by
  intro h
  have hc := h { oneStock with commission := FlatCommission 20 } rfl rfl
    [.submit marketBuy none (.placed (some "V1") ⟨.pending, some 0, some 0⟩) 0 [] [],
      .poll fun _ => { refresh := .ok ⟨.partiallyFilled, some 4, some 100⟩ },
      .poll fun _ => { refresh := .ok ⟨.completed, some 10, some 100⟩ }] "V1" marketBuy
    (by decide +kernel) (by decide +kernel) (by decide +kernel)
  revert hc
  decide +kernel

end NTrade.Execution
