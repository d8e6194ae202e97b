import NTrade.Storage.EventTypes

/-! The codec of the event log. An event is written as JSON under the name of its class; reading
guesses the types of the fields from what it finds. -/
namespace NTrade.Storage
open NTrade.Lib

section Encode

mutual
def toJsonable : PyValue → PyValue
  | .datetime d => .str d.isoformat
  | .dict es => .dict (toJsonableEntries es)
  | .list xs => .list (toJsonableItems xs)
  | .tuple xs => .list (toJsonableItems xs)
  | v => v
def toJsonableItems : List PyValue → List PyValue
  | [] => []
  | x :: xs => toJsonable x :: toJsonableItems xs
def toJsonableEntries : List (Key × PyValue) → List (Key × PyValue)
  | [] => []
  | (k, x) :: es => (k, toJsonable x) :: toJsonableEntries es
end

mutual
/-- `_encode` of an event; a field that holds no event goes through `_to_jsonable`. -/
def encode : PyValue → PyValue
  | .event cls fields => .dict ((.str "__type__", .str cls) :: encodeFields fields)
  | v => toJsonable v
def encodeFields : List (String × PyValue) → List (Key × PyValue)
  | [] => []
  | (name, v) :: fields => (.str name, encode v) :: encodeFields fields
end

/-- The name `json.dumps` writes for a key; it raises on any other. -/
def keyText : Key → Option String
  | .str s => some s
  | .num n => some (Json.dumps (.num n))
  | .nan => some (Json.dumps .nan)
  | .infinite negative => some (Json.dumps (.infinite negative))
  | .bool b => some (Json.dumps (.bool b))
  | .none => some (Json.dumps .null)
  | .object _ => none

mutual
/-- What `json.dumps` writes; `none` is its `TypeError`. -/
def toJson : PyValue → Option Json
  | .none => some .null
  | .bool b => some (.bool b)
  | .num n => some (.num n)
  | .nan => some .nan
  | .infinite negative => some (.infinite negative)
  | .str s => some (.str s)
  | .list xs => (toJsonItems xs).map .arr
  | .tuple xs => (toJsonItems xs).map .arr
  | .dict es => (toJsonEntries es).map .obj
  | .datetime _ => none
  | .event _ _ => none
  | .object _ => none
def toJsonItems : List PyValue → Option (List Json)
  | [] => some []
  | x :: xs =>
    match toJson x, toJsonItems xs with
    | some j, some js => some (j :: js)
    | _, _ => none
def toJsonEntries : List (Key × PyValue) → Option (List (String × Json))
  | [] => some []
  | (k, x) :: es =>
    match keyText k, toJson x, toJsonEntries es with
    | some k, some j, some js => some ((k, j) :: js)
    | _, _, _ => none
end

end Encode

section Decode

mutual
/-- What `json.loads` makes of a JSON value. -/
def ofJson : Json → PyValue
  | .null => .none
  | .bool b => .bool b
  | .num n => .num n
  | .nan => .nan
  | .infinite negative => .infinite negative
  | .str s => .str s
  | .arr xs => .list (ofJsonItems xs)
  | .obj ms => .dict (ofJsonMembers ms)
def ofJsonItems : List Json → List PyValue
  | [] => []
  | x :: xs => ofJson x :: ofJsonItems xs
def ofJsonMembers : List (String × Json) → List (Key × PyValue)
  | [] => []
  | (k, x) :: ms => (.str k, ofJson x) :: ofJsonMembers ms
end

variable (iso : IsoParser)

def fromJsonable : Json → PyValue
  | .str s =>
    match iso.fromisoformat s with
    | some d => .datetime d
    | none => .str s
  | x => ofJson x

def tagged : Json → Bool
  | .obj ms => (ms.lookup "__type__").isSome
  | _ => false

/-- `_EVENT_TYPES.get(data.get("__type__"))`; the outer `none` is the `TypeError` of a name that
cannot be hashed. -/
def classOf (ms : List (String × Json)) : Option (Option EventClass) :=
  match ms.lookup "__type__" with
  | some (.str name) => some (EVENT_TYPES.find? fun c => c.name = name)
  | some (.arr _) => none
  | some (.obj _) => none
  | _ => some none

variable (uuid : String)

def FieldDef.value (kwargs : List (String × PyValue)) (f : FieldDef) : Option (String × PyValue) :=
  match kwargs.lookup f.name, f.default with
  | some v, _ => some (f.name, v)
  | none, some (.value v) => some (f.name, v)
  | none, some .uuid => some (f.name, .str uuid)
  | none, none => none

/-- `cls(**kwargs)`; `none` is the `TypeError` for a field that is missing or unknown. -/
def EventClass.construct (c : EventClass) (kwargs : List (String × PyValue)) : Option PyValue :=
  if ∀ k ∈ kwargs, k.1 ∈ c.fieldNames then (c.fields.mapM (FieldDef.value uuid kwargs)).map (.event c.name) else none

mutual
/-- `_decode`; an unknown class gives `None`. The outer `none` is an exception. -/
def decode : Json → Option PyValue
  | .obj ms =>
    match classOf ms with
    | none => none
    | some none => some .none
    | some (some c) => (decodeFields ms).bind (c.construct uuid)
  | _ => none
def decodeFields : List (String × Json) → Option (List (String × PyValue))
  | [] => some []
  | (key, value) :: ms =>
    if key = "__type__" then decodeFields ms
    else
      match if tagged value then decode value else some (fromJsonable iso value), decodeFields ms with
      | some v, some kwargs => some ((key, v) :: kwargs)
      | _, _ => none
end

/-- What a line with `e` on it is read as: `_decode(json.loads(json.dumps(_encode(e))))`. -/
def roundTrip (e : PyValue) : Option PyValue :=
  match toJson (encode e) with
  | none => none
  | some j =>
    match Json.loads (Json.dumps j) with
    | none => none
    | some data => decode iso uuid data

end Decode

section Values

mutual
/-- No dict has a key twice, and an event has the fields of its class. -/
def WellFormed : PyValue → Prop
  | .list xs => WellFormedItems xs
  | .tuple xs => WellFormedItems xs
  | .dict es => (es.map Prod.fst).Nodup ∧ WellFormedEntries es
  | .event cls fields =>
    (∃ c ∈ EVENT_TYPES, c.name = cls ∧ fields.map Prod.fst = c.fieldNames) ∧ WellFormedFields fields
  | _ => True
def WellFormedItems : List PyValue → Prop
  | [] => True
  | x :: xs => WellFormed x ∧ WellFormedItems xs
def WellFormedEntries : List (Key × PyValue) → Prop
  | [] => True
  | (_, x) :: es => WellFormed x ∧ WellFormedEntries es
def WellFormedFields : List (String × PyValue) → Prop
  | [] => True
  | (_, x) :: fields => WellFormed x ∧ WellFormedFields fields
end

structure Recorded where
  cls : EventClass
  fields : List (String × PyValue)
  registered : cls ∈ EVENT_TYPES
  named : fields.map Prod.fst = cls.fieldNames
  wellFormed : WellFormedFields fields

def Recorded.toPy (e : Recorded) : PyValue := .event e.cls.name e.fields

mutual
/-- A value that JSON has: no point in time, tuple, event or other object in it, and only strings
as keys. -/
def Plain : PyValue → Prop
  | .list xs => PlainItems xs
  | .dict es => PlainEntries es
  | .datetime _ => False
  | .tuple _ => False
  | .event _ _ => False
  | .object _ => False
  | _ => True
def PlainItems : List PyValue → Prop
  | [] => True
  | x :: xs => Plain x ∧ PlainItems xs
def PlainEntries : List (Key × PyValue) → Prop
  | [] => True
  | (k, x) :: es => (∃ s, k = .str s) ∧ Plain x ∧ PlainEntries es
end

mutual
/-- The field values the codec keeps: a string that does not read as a point in time, a list or a
dict of plain values, the dict without the tag of a class, and an event of such fields. -/
def Preserved (iso : IsoParser) : PyValue → Prop
  | .str s => iso.fromisoformat s = none
  | .list xs => PlainItems xs
  | .dict es => PlainEntries es ∧ .str "__type__" ∉ es.map Prod.fst
  | .event _ fields => PreservedFields iso fields
  | .tuple _ => False
  | .object _ => False
  | _ => True
def PreservedFields (iso : IsoParser) : List (String × PyValue) → Prop
  | [] => True
  | (_, v) :: fields => Preserved iso v ∧ PreservedFields iso fields
end

end Values

section Shapes

mutual
/-- Nothing but plain values comes out of JSON. -/
theorem plain_ofJson : ∀ x : Json, Plain (ofJson x)
  | .null => trivial
  | .bool _ => trivial
  | .num _ => trivial
  | .nan => trivial
  | .infinite _ => trivial
  | .str _ => trivial
  | .arr xs => plain_ofJsonItems xs
  | .obj ms => plain_ofJsonMembers ms
private theorem plain_ofJsonItems : ∀ xs : List Json, PlainItems (ofJsonItems xs)
  | [] => trivial
  | x :: xs => ⟨plain_ofJson x, plain_ofJsonItems xs⟩
private theorem plain_ofJsonMembers : ∀ ms : List (String × Json), PlainEntries (ofJsonMembers ms)
  | [] => trivial
  | (k, x) :: ms => ⟨⟨k, rfl⟩, plain_ofJson x, plain_ofJsonMembers ms⟩
end

private theorem keys_ofJsonMembers (ms : List (String × Json)) :
    (ofJsonMembers ms).map Prod.fst = (ms.map Prod.fst).map Key.str := by
  induction ms with
  | nil => rfl
  | cons m ms ih => rw [ofJsonMembers, List.map_cons, ih, List.map_cons, List.map_cons]

private theorem keys_normalizeMembers (ms : List (String × Json)) :
    (Json.normalizeMembers ms).map Prod.fst = ms.map Prod.fst := by
  rw [Json.normalizeMembers_eq_map, List.map_map]
  rfl

private theorem tagged_obj (ms : List (String × Json)) : tagged (.obj ms) = true ↔ "__type__" ∈ ms.map Prod.fst := by
  rw [tagged, List.lookup_isSome_iff, List.mem_map]
  refine exists_congr fun p => and_congr_right fun _ => ?_
  rw [beq_iff_eq, eq_comm]

private theorem object_eq (ms : List (String × Json)) : ∃ ms', Json.object ms = .obj ms' := ⟨_, rfl⟩

mutual
private theorem plain_round : ∀ v : PyValue, Plain v → WellFormed v →
    ∃ j, toJson (toJsonable v) = some j ∧ ofJson (Json.normalize j) = v
  | .none, _, _ => ⟨_, rfl, rfl⟩
  | .bool _, _, _ => ⟨_, rfl, rfl⟩
  | .num _, _, _ => ⟨_, rfl, rfl⟩
  | .nan, _, _ => ⟨_, rfl, rfl⟩
  | .infinite _, _, _ => ⟨_, rfl, rfl⟩
  | .str _, _, _ => ⟨_, rfl, rfl⟩
  | .datetime _, h, _ => h.elim
  | .tuple _, h, _ => h.elim
  | .event _ _, h, _ => h.elim
  | .object _, h, _ => h.elim
  | .list xs, h, hw => by
    obtain ⟨js, hj, he⟩ := plain_round_items xs h hw
    refine ⟨.arr js, ?_, ?_⟩
    · rw [toJsonable, toJson, hj]
      rfl
    · rw [Json.normalize, ofJson, he]
  | .dict es, h, hw => by
    obtain ⟨js, hj, hk, he⟩ := plain_round_entries es h hw.2
    have hn : ((Json.normalizeMembers js).map Prod.fst).Nodup := by
      rw [keys_normalizeMembers]
      exact List.Nodup.of_map Key.str (hk ▸ hw.1)
    refine ⟨.obj js, ?_, ?_⟩
    · rw [toJsonable, toJson, hj]
      rfl
    · rw [Json.normalize, Json.object_of_nodup hn, ofJson, he]
private theorem plain_round_items : ∀ xs : List PyValue, PlainItems xs → WellFormedItems xs →
    ∃ js, toJsonItems (toJsonableItems xs) = some js ∧ ofJsonItems (Json.normalizeItems js) = xs
  | [], _, _ => ⟨_, rfl, rfl⟩
  | x :: xs, h, hw => by
    obtain ⟨j, hj, he⟩ := plain_round x h.1 hw.1
    obtain ⟨js, hjs, hes⟩ := plain_round_items xs h.2 hw.2
    refine ⟨j :: js, ?_, ?_⟩
    · rw [toJsonableItems, toJsonItems, hj, hjs]
    · rw [Json.normalizeItems, ofJsonItems, he, hes]
private theorem plain_round_entries : ∀ es : List (Key × PyValue), PlainEntries es → WellFormedEntries es →
    ∃ js, toJsonEntries (toJsonableEntries es) = some js ∧ es.map Prod.fst = (js.map Prod.fst).map Key.str ∧
      ofJsonMembers (Json.normalizeMembers js) = es
  | [], _, _ => ⟨_, rfl, rfl, rfl⟩
  | (k, x) :: es, h, hw => by
    obtain ⟨s, rfl⟩ := h.1
    obtain ⟨j, hj, he⟩ := plain_round x h.2.1 hw.1
    obtain ⟨js, hjs, hk, hes⟩ := plain_round_entries es h.2.2 hw.2
    refine ⟨(s, j) :: js, ?_, ?_, ?_⟩
    · rw [toJsonableEntries, toJsonEntries, keyText, hj, hjs]
    · rw [List.map_cons, hk, List.map_cons, List.map_cons]
    · rw [Json.normalizeMembers, ofJsonMembers, he, hes]
end

end Shapes

section Construct
variable (uuid : String)

private theorem lookup_of_mem {kwargs : List (String × PyValue)} (hn : (kwargs.map Prod.fst).Nodup)
    {k : String × PyValue} (hk : k ∈ kwargs) : kwargs.lookup k.1 = some k.2 := by
  obtain ⟨before, after, rfl⟩ := List.append_of_mem hk
  refine List.lookup_eq_some_iff.mpr ⟨before, after, rfl, ?_⟩
  intro p hp
  rw [List.map_append, List.nodup_append] at hn
  have hne := hn.2.2 p.1 (List.mem_map_of_mem hp) k.1 (List.mem_cons_self ..)
  simpa using Ne.symm hne

private theorem mapM_value {kwargs : List (String × PyValue)} (hn : (kwargs.map Prod.fst).Nodup)
    (fs : List FieldDef) (kws : List (String × PyValue)) (hsub : ∀ k ∈ kws, k ∈ kwargs)
    (hnames : kws.map Prod.fst = fs.map FieldDef.name) : fs.mapM (FieldDef.value uuid kwargs) = some kws := by
  induction fs generalizing kws with
  | nil =>
    rw [List.map_nil, List.map_eq_nil_iff] at hnames
    subst hnames
    rfl
  | cons f fs ih =>
    cases kws with
    | nil => cases hnames
    | cons k kws =>
      obtain ⟨hname, hrest⟩ := List.cons.inj hnames
      have hk := lookup_of_mem hn (hsub k (List.mem_cons_self ..))
      have hv : FieldDef.value uuid kwargs f = some k := by
        rw [FieldDef.value, ← hname, hk]
      rw [List.mapM_cons, hv, ih kws (fun k hk => hsub k (List.mem_cons_of_mem _ hk)) hrest]
      rfl

/-- With all its fields given, an event holds just these. -/
theorem EventClass.construct_of_named {c : EventClass} (hc : c ∈ EVENT_TYPES) {kwargs : List (String × PyValue)}
    (hnames : kwargs.map Prod.fst = c.fieldNames) : c.construct uuid kwargs = some (.event c.name kwargs) := by
  have hn : (kwargs.map Prod.fst).Nodup := hnames ▸ (List.nodup_cons.mp (fieldNames_nodup c hc)).2
  have hall : ∀ k ∈ kwargs, k.1 ∈ c.fieldNames := by
    intro k hk
    rw [← hnames]
    exact List.mem_map_of_mem hk
  rw [EventClass.construct, if_pos hall, mapM_value uuid hn c.fields kwargs (fun _ h => h) hnames]
  rfl

theorem EventClass.find_name {c : EventClass} (hc : c ∈ EVENT_TYPES) :
    EVENT_TYPES.find? (fun c' => c'.name = c.name) = some c := by
  cases hf : EVENT_TYPES.find? (fun c' => c'.name = c.name) with
  | none =>
    have hn := List.find?_eq_none.mp hf c hc
    simp at hn
  | some c' =>
    have hname := List.find?_some hf
    simp only [decide_eq_true_eq] at hname
    rw [List.inj_on_of_nodup_map EVENT_TYPES_names_nodup (List.mem_of_find?_eq_some hf) hc hname]

/-- A class makes events of its own name. -/
theorem EventClass.construct_event {c : EventClass} {kwargs : List (String × PyValue)} {v : PyValue}
    (h : c.construct uuid kwargs = some v) : ∃ fields, v = .event c.name fields := by
  rw [EventClass.construct] at h
  split at h
  · obtain ⟨fields, -, rfl⟩ := Option.map_eq_some_iff.mp h
    exact ⟨fields, rfl⟩
  · cases h

end Construct

section RoundTrip
variable (iso : IsoParser) (uuid : String)

/-- What `_decode` puts into a field. -/
def decodeValue (x : Json) : Option PyValue := if tagged x then decode iso uuid x else some (fromJsonable iso x)

private theorem decodeFields_cons {key : String} (hk : key ≠ "__type__") (x : Json) (ms : List (String × Json)) :
    decodeFields iso uuid ((key, x) :: ms) =
      match decodeValue iso uuid x, decodeFields iso uuid ms with
      | some v, some kwargs => some ((key, v) :: kwargs)
      | _, _ => none := by
  rw [decodeFields, if_neg hk]
  rfl

/-- `_decode` gives `None` or an event. -/
private theorem decode_shape {x : Json} {v : PyValue} (h : decode iso uuid x = some v) :
    v = .none ∨ ∃ cls fields, v = .event cls fields := by
  cases x with
  | obj ms =>
    rw [decode] at h
    split at h
    · cases h
    · exact .inl (Option.some.inj h).symm
    · next c _ =>
      obtain ⟨kwargs, -, hc⟩ := Option.bind_eq_some_iff.mp h
      obtain ⟨fields, hv⟩ := EventClass.construct_event uuid hc
      exact .inr ⟨c.name, fields, hv⟩
  | _ => cases h

private theorem decodeValue_of_not_tagged {x : Json} (h : tagged x = false) :
    decodeValue iso uuid x = some (fromJsonable iso x) := by
  rw [decodeValue, h]
  rfl

/-- Written into a field and read back, the value is the same. -/
def Survives (v : PyValue) : Prop :=
  ∃ j, toJson (encode v) = some j ∧ decodeValue iso uuid (Json.normalize j) = some v

def SurviveFields (fields : List (String × PyValue)) : Prop :=
  ∃ js, toJsonEntries (encodeFields fields) = some js ∧
    decodeFields iso uuid (Json.normalizeMembers js) = some fields

private theorem survives_of {v : PyValue} {j : Json} (hj : toJson (encode v) = some j) :
    Survives iso uuid v ↔ decodeValue iso uuid (Json.normalize j) = some v := by
  refine ⟨?_, fun h => ⟨j, hj, h⟩⟩
  rintro ⟨j', hj', h⟩
  rw [hj] at hj'
  rwa [Option.some.inj hj']

private theorem survives_str (s : String) : Survives iso uuid (.str s) ↔ iso.fromisoformat s = none := by
  rw [survives_of iso uuid (j := .str s) rfl, Json.normalize_str, decodeValue_of_not_tagged iso uuid rfl, fromJsonable]
  cases iso.fromisoformat s with
  | none => exact iff_of_true rfl rfl
  | some d => exact iff_of_false nofun nofun

private theorem survives_datetime (d : DateTime) : Survives iso uuid (.datetime d) := by
  refine ⟨.str d.isoformat, rfl, ?_⟩
  rw [Json.normalize_str, decodeValue_of_not_tagged iso uuid rfl, fromJsonable, iso.inverse]

private theorem survives_list {xs : List PyValue} (hw : WellFormedItems xs) :
    Survives iso uuid (.list xs) ↔ PlainItems xs := by
  constructor
  · rintro ⟨j, hj, h⟩
    obtain ⟨js, -, rfl⟩ := Option.map_eq_some_iff.mp hj
    rw [Json.normalize, decodeValue_of_not_tagged iso uuid rfl] at h
    have hp := plain_ofJson (.arr (Json.normalizeItems js))
    have he : ofJson (.arr (Json.normalizeItems js)) = .list xs := Option.some.inj h
    rw [he] at hp
    exact hp
  · intro h
    obtain ⟨j, hj, he⟩ := plain_round (.list xs) h hw
    obtain ⟨js, -, rfl⟩ := Option.map_eq_some_iff.mp hj
    exact ⟨.arr js, hj, congrArg some he⟩

private theorem not_survives_tuple (xs : List PyValue) : ¬Survives iso uuid (.tuple xs) := by
  rintro ⟨j, hj, h⟩
  obtain ⟨js, -, rfl⟩ := Option.map_eq_some_iff.mp hj
  rw [Json.normalize, decodeValue_of_not_tagged iso uuid rfl] at h
  cases Option.some.inj h

private theorem survives_dict {es : List (Key × PyValue)} (hw : WellFormed (.dict es)) :
    Survives iso uuid (.dict es) ↔ PlainEntries es ∧ .str "__type__" ∉ es.map Prod.fst := by
  have hkeys (ms : List (String × Json)) (he : ofJsonMembers ms = es) :
      .str "__type__" ∈ es.map Prod.fst ↔ tagged (.obj ms) = true := by
    rw [tagged_obj, ← he, keys_ofJsonMembers, List.mem_map]
    refine ⟨?_, fun h => ⟨_, h, rfl⟩⟩
    rintro ⟨k, hk, h⟩
    rwa [← Key.str.inj h]
  constructor
  · rintro ⟨j, hj, h⟩
    obtain ⟨js, -, rfl⟩ := Option.map_eq_some_iff.mp hj
    obtain ⟨ms, hms⟩ := object_eq (Json.normalizeMembers js)
    rw [Json.normalize, hms, decodeValue] at h
    split at h
    · rcases decode_shape iso uuid h with hv | ⟨cls, fields, hv⟩
      · cases hv
      · cases hv
    · next ht =>
      have he : ofJsonMembers ms = es := PyValue.dict.inj (Option.some.inj h)
      have hp := plain_ofJson (.obj ms)
      rw [ofJson, he] at hp
      exact ⟨hp, fun hk => ht ((hkeys ms he).mp hk)⟩
  · rintro ⟨hp, hk⟩
    obtain ⟨j, hj, he⟩ := plain_round (.dict es) hp hw
    refine ⟨j, hj, ?_⟩
    obtain ⟨js, -, rfl⟩ := Option.map_eq_some_iff.mp hj
    obtain ⟨ms, hms⟩ := object_eq (Json.normalizeMembers js)
    rw [Json.normalize, hms] at he ⊢
    have ht : tagged (.obj ms) = false := by
      rw [← Bool.not_eq_true, ← hkeys ms (PyValue.dict.inj he)]
      exact hk
    rw [decodeValue_of_not_tagged iso uuid ht, ← he]
    rfl

private theorem not_survives_object (name : String) : ¬Survives iso uuid (.object name) := by
  rintro ⟨j, hj, -⟩
  cases hj

private theorem keys_toJsonEntries (fields : List (String × PyValue)) {js : List (String × Json)}
    (h : toJsonEntries (encodeFields fields) = some js) : js.map Prod.fst = fields.map Prod.fst := by
  induction fields generalizing js with
  | nil =>
    cases h
    rfl
  | cons f fields ih =>
    rw [encodeFields, toJsonEntries, keyText] at h
    split at h
    · next k j js' hk hj hjs =>
      cases h
      rw [List.map_cons, ih hjs, List.map_cons, Option.some.inj hk]
    · cases h

private theorem keys_decodeFields {ms : List (String × Json)} (hn : "__type__" ∉ ms.map Prod.fst)
    {kwargs : List (String × PyValue)} (h : decodeFields iso uuid ms = some kwargs) :
    kwargs.map Prod.fst = ms.map Prod.fst := by
  induction ms generalizing kwargs with
  | nil =>
    cases h
    rfl
  | cons m ms ih =>
    obtain ⟨hm, hms⟩ := not_or.mp (List.mem_cons.not.mp hn)
    rw [decodeFields_cons iso uuid (Ne.symm hm)] at h
    split at h
    · next v kwargs' _ hk =>
      cases h
      rw [List.map_cons, ih hms hk, List.map_cons]
    · cases h

/-- An event is written and read field by field. -/
private theorem decode_event {c : EventClass} (hc : c ∈ EVENT_TYPES) {fields : List (String × PyValue)}
    (hnames : fields.map Prod.fst = c.fieldNames) {js : List (String × Json)}
    (hjs : toJsonEntries (encodeFields fields) = some js) :
    toJson (encode (.event c.name fields)) = some (.obj (("__type__", .str c.name) :: js)) ∧
      tagged (Json.normalize (.obj (("__type__", .str c.name) :: js))) = true ∧
        decode iso uuid (Json.normalize (.obj (("__type__", .str c.name) :: js))) =
          (decodeFields iso uuid (Json.normalizeMembers js)).map (.event c.name) := by
  have hkeys : (Json.normalizeMembers js).map Prod.fst = c.fieldNames := by
    rw [keys_normalizeMembers, keys_toJsonEntries fields hjs, hnames]
  have hn := fieldNames_nodup c hc
  have hnorm : Json.normalize (.obj (("__type__", .str c.name) :: js)) =
      .obj (("__type__", .str c.name) :: Json.normalizeMembers js) := by
    rw [Json.normalize, Json.normalizeMembers, Json.normalize_str, Json.object_of_nodup]
    rw [List.map_cons, hkeys]
    exact hn
  refine ⟨?_, ?_, ?_⟩
  · rw [encode, toJson, toJsonEntries, keyText, toJson, hjs]
    rfl
  · rw [hnorm]
    rfl
  · have hclass : classOf (("__type__", .str c.name) :: Json.normalizeMembers js) = some (some c) := by
      rw [classOf, List.lookup_cons_self]
      dsimp only
      rw [EventClass.find_name hc]
    rw [hnorm, decode, hclass, decodeFields, if_pos rfl]
    dsimp only
    cases hk : decodeFields iso uuid (Json.normalizeMembers js) with
    | none => rfl
    | some kwargs =>
      have hnamed : kwargs.map Prod.fst = c.fieldNames := by
        rw [keys_decodeFields iso uuid ?_ hk, hkeys]
        rw [hkeys]
        exact (List.nodup_cons.mp hn).1
      rw [Option.bind_some, EventClass.construct_of_named uuid hc hnamed]
      rfl

private theorem survives_event {c : EventClass} (hc : c ∈ EVENT_TYPES) {fields : List (String × PyValue)}
    (hnames : fields.map Prod.fst = c.fieldNames) :
    Survives iso uuid (.event c.name fields) ↔ SurviveFields iso uuid fields := by
  cases hjs : toJsonEntries (encodeFields fields) with
  | none =>
    refine iff_of_false ?_ ?_
    · rintro ⟨j, hj, -⟩
      rw [encode, toJson, toJsonEntries, keyText, toJson, hjs] at hj
      cases hj
    · rintro ⟨js, hj, -⟩
      rw [hjs] at hj
      cases hj
  | some js =>
    obtain ⟨hj, ht, hd⟩ := decode_event iso uuid hc hnames hjs
    rw [survives_of iso uuid hj, decodeValue, ht, if_pos rfl, hd]
    constructor
    · intro h
      obtain ⟨kwargs, hk, he⟩ := Option.map_eq_some_iff.mp h
      obtain ⟨-, rfl⟩ := PyValue.event.inj he
      exact ⟨js, hjs, hk⟩
    · rintro ⟨js', hj', hk⟩
      rw [hjs] at hj'
      cases hj'
      rw [hk]
      rfl

private theorem surviveFields_cons {name : String} (hn : name ≠ "__type__") (v : PyValue)
    (fields : List (String × PyValue)) :
    SurviveFields iso uuid ((name, v) :: fields) ↔ Survives iso uuid v ∧ SurviveFields iso uuid fields := by
  constructor
  · rintro ⟨js, hj, h⟩
    rw [encodeFields, toJsonEntries, keyText] at hj
    split at hj
    · next k j js' hk hv hjs =>
      cases hk
      cases hj
      rw [Json.normalizeMembers, decodeFields_cons iso uuid hn] at h
      split at h
      · next v' kwargs hv' hkw =>
        obtain ⟨he, rfl⟩ := List.cons.inj (Option.some.inj h)
        obtain ⟨-, rfl⟩ := Prod.mk.inj he
        exact ⟨⟨j, hv, hv'⟩, ⟨js', hjs, hkw⟩⟩
      · cases h
    · cases hj
  · rintro ⟨⟨j, hv, hv'⟩, ⟨js, hjs, hkw⟩⟩
    refine ⟨(name, j) :: js, ?_, ?_⟩
    · rw [encodeFields, toJsonEntries, keyText, hv, hjs]
    · rw [Json.normalizeMembers, decodeFields_cons iso uuid hn, hv', hkw]

mutual
/-- The values that survive a field are the preserved ones. -/
theorem survives_iff : ∀ v : PyValue, WellFormed v → (Survives iso uuid v ↔ Preserved iso v)
  | .none, _ => iff_of_true ⟨_, rfl, rfl⟩ trivial
  | .bool _, _ => iff_of_true ⟨_, rfl, rfl⟩ trivial
  | .num _, _ => iff_of_true ⟨_, rfl, rfl⟩ trivial
  | .nan, _ => iff_of_true ⟨_, rfl, rfl⟩ trivial
  | .infinite _, _ => iff_of_true ⟨_, rfl, rfl⟩ trivial
  | .str s, _ => survives_str iso uuid s
  | .datetime d, _ => iff_of_true (survives_datetime iso uuid d) trivial
  | .list _, hw => survives_list iso uuid hw
  | .tuple xs, _ => iff_of_false (not_survives_tuple iso uuid xs) id
  | .dict _, hw => survives_dict iso uuid hw
  | .object name, _ => iff_of_false (not_survives_object iso uuid name) id
  | .event cls fields, hw => by
    obtain ⟨⟨c, hc, rfl, hnames⟩, hf⟩ := hw
    have hn : "__type__" ∉ fields.map Prod.fst := by
      rw [hnames]
      exact (List.nodup_cons.mp (fieldNames_nodup c hc)).1
    rw [survives_event iso uuid hc hnames]
    exact surviveFields_iff fields hn hf
private theorem surviveFields_iff : ∀ fields : List (String × PyValue), "__type__" ∉ fields.map Prod.fst →
    WellFormedFields fields → (SurviveFields iso uuid fields ↔ PreservedFields iso fields)
  | [], _, _ => iff_of_true ⟨_, rfl, rfl⟩ trivial
  | (name, v) :: fields, hn, hw => by
    obtain ⟨hname, hrest⟩ := not_or.mp (List.mem_cons.not.mp hn)
    rw [surviveFields_cons iso uuid (Ne.symm hname), survives_iff v hw.1, surviveFields_iff fields hrest hw.2]
    exact Iff.rfl
end

theorem Recorded.wellFormed_toPy (e : Recorded) : WellFormed e.toPy := ⟨⟨e.cls, e.registered, rfl, e.named⟩, e.wellFormed⟩

theorem roundTrip_eq_survives (e : Recorded) :
    roundTrip iso uuid e.toPy = some e.toPy ↔ Survives iso uuid e.toPy := by
  cases hjs : toJsonEntries (encodeFields e.fields) with
  | none =>
    have hn : toJson (encode e.toPy) = none := by
      rw [Recorded.toPy, encode, toJson, toJsonEntries, keyText, toJson, hjs]
      rfl
    refine iff_of_false ?_ ?_
    · rw [roundTrip, hn]
      exact nofun
    · rintro ⟨j, hj, -⟩
      rw [hn] at hj
      cases hj
  | some js =>
    obtain ⟨hj, ht, -⟩ := decode_event iso uuid e.registered e.named hjs
    rw [Recorded.toPy, roundTrip, survives_of iso uuid hj, hj, decodeValue, ht, if_pos rfl]
    dsimp only
    rw [Json.loads_dumps]

/-- A line of the log is read as the event it was written for exactly where each of its fields is
preserved. -/
theorem decode_encode_iff (e : Recorded) : roundTrip iso uuid e.toPy = some e.toPy ↔ Preserved iso e.toPy := by
  rw [roundTrip_eq_survives, survives_iff iso uuid _ e.wellFormed_toPy]

end RoundTrip

section Lost

def opening : DateTime := ⟨{ year := 2024, month := 1, day := 2, hour := 9, minute := 15 }, by decide⟩

def bookSnapshot : Recorded where
  cls := .depthEvent
  fields := [("ts", .datetime opening), ("event_id", .str "3f2a9c1b7d4e"), ("correlation_id", .none),
    ("causation_id", .none), ("symbol", .str "NIFTY"), ("exchange", .str "NSE"),
    ("bids", .tuple [.tuple [.num { whole := 100, fraction := [5] }, .int 75, .int 3]]), ("asks", .tuple [])]
  registered := by simp [EVENT_TYPES]
  named := rfl
  wellFormed := by simp [WellFormedFields, WellFormed, WellFormedItems, PyValue.int]

def expiryTick : Recorded where
  cls := .tickEvent
  fields := [("ts", .datetime opening), ("event_id", .str "3f2a9c1b7d4e"), ("correlation_id", .none),
    ("causation_id", .none), ("symbol", .str "2024-01-25"), ("exchange", .str "NFO"),
    ("price", .num { whole := 100, fraction := [5] }), ("quantity", .int 75), ("side", .str "buy"), ("kind", .str "trade")]
  registered := by simp [EVENT_TYPES]
  named := rfl
  wellFormed := by simp [WellFormedFields, WellFormed, PyValue.int]

private theorem expiry_is_a_date : (IsoParser.python310.fromisoformat "2024-01-25").isSome = true := by decide +kernel

/-- The book comes back with lists in it, and the symbol as a point in time. -/
theorem books_and_dates_come_back_changed :
    roundTrip .python310 "c0ffee" bookSnapshot.toPy ≠ some bookSnapshot.toPy ∧
      roundTrip .python310 "c0ffee" expiryTick.toPy ≠ some expiryTick.toPy := by
  constructor
  · rw [Ne, roundTrip_eq_survives, survives_iff _ _ _ bookSnapshot.wellFormed_toPy]
    rintro ⟨-, -, -, -, -, -, hbids, -⟩
    exact hbids
  · rw [Ne, roundTrip_eq_survives, survives_iff _ _ _ expiryTick.wellFormed_toPy]
    rintro ⟨-, -, -, -, hsymbol, -⟩
    have hdate := expiry_is_a_date
    rw [show IsoParser.python310.fromisoformat "2024-01-25" = none from hsymbol] at hdate
    cases hdate

end Lost

end NTrade.Storage
