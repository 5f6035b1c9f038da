import ScalarDomain.Descriptor
import ScalarDomain.Proofs.Datum

/-!
# The grammar of descriptions

Types, operations and parameters have a grammar: the names and the parts by which a value is
described, with the range of every number. Each grammar is a relation `Form`, and forms nest as the
values do. A reader accepts exactly the data of its grammar, and what is written belongs to it, so
every value with parameters in range is read back, and nothing out of range is ever read
(`Faithful`).

Tags are those of the kinds of operations in snake case (`snakeCase`).
-/

namespace ScalarDomain

/-- A datum that has the parts of a value in one of its forms. -/
def Datum.Describes {α : Type} (Form : α → List String → List Datum → Prop) (d : Datum) (a : α) :
    Prop :=
  ∃ names parts, Form a names parts ∧ d.HasParts names parts

/-- Descriptions that can be relied on: they follow a grammar, they can be read back, no two values
share one, and only valid values have one. -/
structure Faithful {α : Type} (Valid : α → Prop) (write : α → Datum) (read : Reader α)
    (Form : α → List String → List Datum → Prop) : Prop where
  /-- The descriptions that are read are those of the grammar. -/
  read_iff : ∀ d a, read d = .ok a ↔ d.Describes Form a
  /-- What was written is read back. -/
  read_write : ∀ a, Valid a → read (write a) = .ok a
  /-- Different values are written differently. -/
  injOn : Set.InjOn write {a | Valid a}
  /-- What is read is valid. -/
  valid : ∀ d a, read d = .ok a → Valid a

/-- A reader that accepts exactly the written forms of valid values is faithful: it reads back what
is written, and no two values share a form. -/
theorem Faithful.of_accepts {α : Type} {Valid : α → Prop} {write : α → Datum} {read : Reader α}
    {Form : α → List String → List Datum → Prop}
    (haccepts : Reader.Accepts read (Datum.Describes Form))
    (hwrite : ∀ a, Valid a → (write a).Describes Form a)
    (hvalid : ∀ a names parts, Form a names parts → Valid a) : Faithful Valid write read Form where
  read_iff := haccepts
  read_write a ha := (haccepts _ a).mpr (hwrite a ha)
  injOn a ha b hb h := by
    have hread := (haccepts _ a).mpr (hwrite a ha)
    rw [h, (haccepts _ b).mpr (hwrite b hb)] at hread
    exact (Except.ok.inj hread).symm
  valid d a h := by
    obtain ⟨names, parts, hform, -⟩ := (haccepts d a).mp h
    exact hvalid a names parts hform

/-! ### Types -/

namespace IntType

/-- The width is one of 1 to 128. -/
def Valid (t : IntType) : Prop :=
  1 ≤ t.width ∧ t.width ≤ 128

/-- An integer type is its width and whether it is signed. -/
inductive Form : IntType → List String → List Datum → Prop
  | mk {width : ℕ} {signed : Bool} (lo : 1 ≤ width) (hi : width ≤ 128) :
    Form ⟨width, signed, lo, hi⟩ ["width", "signed"] [.count width, .bool signed]

theorem Form.valid {t : IntType} {names : List String} {parts : List Datum}
    (h : Form t names parts) : t.Valid := by
  obtain ⟨lo, hi⟩ := h
  exact ⟨lo, hi⟩

/-- A width is accepted for the one type that has it. -/
theorem ofWidth_eq_ok_iff {width : ℕ} {signed : Bool} {t : IntType} :
    ofWidth width signed = .ok t ↔ t.width = width ∧ t.signed = signed := by
  rw [ofWidth, ofWidth?]
  split_ifs with h
  · cases t
    simp [eq_comm]
  · constructor
    · rintro ⟨⟩
    · rintro ⟨rfl, -⟩
      exact absurd ⟨t.one_le_width, t.width_le_max⟩ h

/-- A type of integers is read from its width and its sign. -/
theorem accepts_ofDatum : Reader.Accepts ofDatum (Datum.Describes Form) := by
  intro d t
  have hpair := Datum.accepts_toPair "width" "signed" Datum.accepts_toWord Datum.accepts_toBool d
  simp only [ofDatum, bind_eq_ok_iff, hpair, checkRead_eq_ok_iff, ofWidth_eq_ok_iff]
  constructor
  · rintro ⟨v, ⟨_, _, hparts, ⟨rfl, -⟩, rfl⟩, hwidth, hsigned⟩
    rw [← hwidth, ← hsigned] at hparts
    exact ⟨_, _, .mk t.one_le_width t.width_le_max, hparts⟩
  · rintro ⟨_, _, ⟨lo, hi⟩, hparts⟩
    refine ⟨(_, _), ⟨_, _, hparts, ⟨rfl, ?_⟩, rfl⟩, rfl, rfl⟩
    exact hi.trans_lt (by decide)

theorem describes_toDatum (t : IntType) : t.toDatum.Describes Form t :=
  ⟨_, _, .mk t.one_le_width t.width_le_max, by simp [toDatum, fields, List.lookup]⟩

/-- Types of integers are told by their data. -/
theorem faithful : Faithful Valid toDatum ofDatum Form :=
  .of_accepts accepts_ofDatum (fun t _ => t.describes_toDatum) fun _ _ _ => Form.valid

end IntType

namespace FloatType

/-- The width is 32 or 64. -/
def Valid (t : FloatType) : Prop :=
  t.width = 32 ∨ t.width = 64

/-- A floating point type is its width. -/
inductive Form : FloatType → List String → List Datum → Prop
  | single : Form .single ["width"] [.count 32]
  | double : Form .double ["width"] [.count 64]

/-- The form of a type of floats has its width only. -/
theorem form_iff {t : FloatType} {names : List String} {parts : List Datum} :
    Form t names parts ↔ names = ["width"] ∧ parts = [.count t.width] := by
  constructor
  · rintro (_ | _) <;> exact ⟨rfl, rfl⟩
  · rintro ⟨rfl, rfl⟩
    cases t
    · exact .single
    · exact .double

theorem Form.valid {t : FloatType} {names : List String} {parts : List Datum}
    (h : Form t names parts) : t.Valid := by
  rcases h with _ | _
  · exact .inl rfl
  · exact .inr rfl

/-- A width is accepted for the one format that has it. -/
theorem ofWidth_eq_ok_iff {width : ℕ} {t : FloatType} :
    ofWidth width = .ok t ↔ t.width = width := by
  rw [ofWidth, ofWidth?]
  split_ifs with h h'
  · cases t <;> simp [FloatType.width, h]
  · cases t <;> simp [FloatType.width, h']
  · cases t <;> simp [FloatType.width, eq_comm, h, h']

theorem width_lt (t : FloatType) : t.width < 2 ^ 32 := by
  cases t <;> decide

/-- A type of floats is read from its width. -/
theorem accepts_ofDatum : Reader.Accepts ofDatum (Datum.Describes Form) := by
  intro d t
  have hone := Datum.accepts_toOne "width" Datum.accepts_toWord d
  simp only [ofDatum, bind_eq_ok_iff, hone, checkRead_eq_ok_iff, ofWidth_eq_ok_iff,
    Datum.Describes, form_iff]
  constructor
  · rintro ⟨_, ⟨_, hparts, rfl, -⟩, rfl⟩
    exact ⟨_, _, ⟨rfl, rfl⟩, hparts⟩
  · rintro ⟨_, _, ⟨rfl, rfl⟩, hparts⟩
    exact ⟨t.width, ⟨_, hparts, rfl, t.width_lt⟩, rfl⟩

theorem describes_toDatum (t : FloatType) : t.toDatum.Describes Form t :=
  ⟨_, _, form_iff.mpr ⟨rfl, rfl⟩, by simp [toDatum, fields, List.lookup]⟩

/-- Types of floats are told by their data. -/
theorem faithful : Faithful Valid toDatum ofDatum Form :=
  .of_accepts accepts_ofDatum (fun t _ => t.describes_toDatum) fun _ _ _ => Form.valid

end FloatType

namespace ScalarType

/-- The integer or floating point type is valid. -/
def Valid : ScalarType → Prop
  | word .bit => True
  | word (.int t) => t.Valid
  | float t => t.Valid

/-- Of a tagged type the parts follow the tag. -/
inductive Form : ScalarType → List String → List Datum → Prop
  | bit : Form .bit ["type"] [.text "bit"]
  | int {t : IntType} {names : List String} {parts : List Datum} (h : t.Form names parts) :
    Form (.int t) ("type" :: names) (.text "int" :: parts)
  | float {t : FloatType} {names : List String} {parts : List Datum} (h : t.Form names parts) :
    Form (.float t) ("type" :: names) (.text "float" :: parts)

/-- A scalar type is read from its tag, and from the data of the type under the tag. -/
theorem accepts_ofDatum : Reader.Accepts ofDatum (Datum.Describes Form) := by
  intro d s
  simp only [ofDatum, bind_eq_ok_iff, Prod.exists]
  constructor
  · rintro ⟨tag, rest, htag, h⟩
    split_ifs at h with hbit hint hfloat
    · subst hbit
      simp only [bind_eq_ok_iff, pure_eq_ok_iff] at h
      obtain ⟨_, hunit, rfl⟩ := h
      have hparts := (Datum.accepts_toUnit rest ()).mp hunit
      exact ⟨_, _, .bit, Datum.toTagged_hasParts_iff.mp ⟨rest, htag, hparts⟩⟩
    · subst hint
      simp only [bind_eq_ok_iff, pure_eq_ok_iff] at h
      obtain ⟨t, ht, rfl⟩ := h
      obtain ⟨names, parts, hform, hparts⟩ := (IntType.accepts_ofDatum rest t).mp ht
      exact ⟨_, _, .int hform, Datum.toTagged_hasParts_iff.mp ⟨rest, htag, hparts⟩⟩
    · subst hfloat
      simp only [bind_eq_ok_iff, pure_eq_ok_iff] at h
      obtain ⟨t, ht, rfl⟩ := h
      obtain ⟨names, parts, hform, hparts⟩ := (FloatType.accepts_ofDatum rest t).mp ht
      exact ⟨_, _, .float hform, Datum.toTagged_hasParts_iff.mp ⟨rest, htag, hparts⟩⟩
  · rintro ⟨_, _, hform, hparts⟩
    cases hform with
    | bit =>
      obtain ⟨rest, htag, hrest⟩ := Datum.toTagged_hasParts_iff.mpr hparts
      refine ⟨_, rest, htag, ?_⟩
      rw [if_pos rfl, (Datum.accepts_toUnit rest ()).mpr hrest]
      rfl
    | int h =>
      obtain ⟨rest, htag, hrest⟩ := Datum.toTagged_hasParts_iff.mpr hparts
      refine ⟨_, rest, htag, ?_⟩
      rw [if_neg (by decide), if_pos rfl, (IntType.accepts_ofDatum rest _).mpr ⟨_, _, h, hrest⟩]
      rfl
    | float h =>
      obtain ⟨rest, htag, hrest⟩ := Datum.toTagged_hasParts_iff.mpr hparts
      refine ⟨_, rest, htag, ?_⟩
      rw [if_neg (by decide), if_neg (by decide), if_pos rfl,
        (FloatType.accepts_ofDatum rest _).mpr ⟨_, _, h, hrest⟩]
      rfl

/-- Scalar types are told by their data. -/
theorem faithful : Faithful Valid toDatum ofDatum Form := by
  refine .of_accepts accepts_ofDatum ?_ ?_
  · rintro ((_ | t) | t) ht
    · exact ⟨_, _, .bit, by simp [toDatum, List.lookup]⟩
    · exact ⟨_, _, .int (.mk ht.1 ht.2), by simp [toDatum, IntType.fields, List.lookup]⟩
    · exact ⟨_, _, .float (FloatType.form_iff.mpr ⟨rfl, rfl⟩),
        by simp [toDatum, FloatType.fields, List.lookup]⟩
  · rintro _ _ _ (_ | h | h)
    · exact trivial
    · exact h.valid
    · exact h.valid

end ScalarType

/-! ### Operations -/

/-- A name in lower case, with an underscore before every capital but the first. -/
def snakeCase (name : String) : String :=
  .ofList <| match name.toList with
    | [] => []
    | c :: cs => c.toLower :: cs.flatMap fun c => if c.isUpper then ['_', c.toLower] else [c]

namespace OperationKind

/-- The kinds of operations with parameters. -/
def parametric : List OperationKind :=
  [castInt, castFloat, extendWithZero, extendWithSign, reduce, bitSet]

/-- The tag of an operation is its name in lower case, with an underscore before every capital but
the first. -/
theorem tag_eq_snakeCase (k : OperationKind) : k.tag = snakeCase k.name := by
  cases k <;> rfl

theorem mem_all (k : OperationKind) : k ∈ all := by
  cases k <;> decide

/-- No two operations share a tag. -/
theorem nodup_tags : (all.map tag).Nodup := by
  decide

/-- The tag of an operation names it. -/
theorem named_tag_iff {s : String} {k : OperationKind} :
    Datum.named all tag s = .ok k ↔ k.tag = s := by
  simp [Datum.named_eq_ok_iff nodup_tags, mem_all]

end OperationKind

namespace Operation

variable {k : OperationKind} {op : Operation} {d : Datum} {names : List String}
  {parts : List Datum}

/-- The parameters are numbers of 32 bits and valid types. -/
def Valid : Operation → Prop
  | castInt dest => dest.Valid
  | castFloat dest => dest.Valid
  | extend _ n => n < 2 ^ 32
  | reduce low high | bitSet low high => low < 2 ^ 32 ∧ high < 2 ^ 32
  | _ => True

/-- The form of the parameters of an operation. -/
inductive Parameters : Operation → List String → List Datum → Prop
  | castInt {dest : IntType} {d : Datum} (h : d.Describes IntType.Form dest) :
    Parameters (castInt dest) ["to"] [d]
  | castFloat {dest : FloatType} {d : Datum} (h : d.Describes FloatType.Form dest) :
    Parameters (castFloat dest) ["to"] [d]
  | extend {fill : Extension} {n : ℕ} (h : n < 2 ^ 32) :
    Parameters (extend fill n) ["extension"] [.count n]
  | reduce {low high : ℕ} (hlow : low < 2 ^ 32) (hhigh : high < 2 ^ 32) :
    Parameters (reduce low high) ["low", "high"] [.count low, .count high]
  | bitSet {low high : ℕ} (hlow : low < 2 ^ 32) (hhigh : high < 2 ^ 32) :
    Parameters (bitSet low high) ["low", "high"] [.count low, .count high]
  | none {op : Operation} (h : op.kind ∉ OperationKind.parametric) : Parameters op [] []

/-- The parameters follow the kind in snake case. -/
inductive Form : Operation → List String → List Datum → Prop
  | mk {op : Operation} {names : List String} {parts : List Datum}
    (h : op.Parameters names parts) :
    Form op ("op" :: names) (.text (snakeCase op.kind.name) :: parts)

/-- An operation has parameters or is given by its kind. -/
theorem parametric_cases (op : Operation) :
    (op.kind ∉ OperationKind.parametric ∧ ofKind? op.kind = some op) ∨
      op.kind ∈ OperationKind.parametric ∧ ((∃ dest, op = castInt dest) ∨
        (∃ dest, op = castFloat dest) ∨ (∃ fill n, op = extend fill n) ∨
        (∃ low high, op = reduce low high) ∨ ∃ low high, op = bitSet low high) := by
  cases op with
  | castInt | castFloat | reduce | bitSet => exact .inr ⟨by simp [kind]; decide, by simp⟩
  | extend fill => exact .inr ⟨by cases fill <;> simp [kind] <;> decide, by simp⟩
  | compare c => cases c <;> exact .inl ⟨by decide, rfl⟩
  | extremum e => cases e <;> exact .inl ⟨by decide, rfl⟩
  | bitwise b => cases b <;> exact .inl ⟨by decide, rfl⟩
  | shift d | rotate d => cases d <;> exact .inl ⟨by decide, rfl⟩
  | connective c => cases c <;> exact .inl ⟨by decide, rfl⟩
  | _ => exact .inl ⟨by decide, rfl⟩

/-- A kind without parameters has one operation. -/
theorem ofKind?_eq_some_iff : ofKind? k = some op ↔ op.kind = k ∧ k ∉ OperationKind.parametric := by
  constructor
  · intro h
    cases k <;> cases h <;> decide
  · rintro ⟨rfl, h⟩
    rcases op.parametric_cases with ⟨-, hop⟩ | ⟨hmem, -⟩
    · exact hop
    · exact absurd hmem h

/-- An operation without parameters is always valid. -/
theorem valid_of_ofKind? (h : ofKind? k = some op) : op.Valid := by
  cases k <;> cases h <;> trivial

/-- What has a form was accepted by the checks of its constructor. -/
theorem Form.valid (h : Form op names parts) : op.Valid := by
  obtain ⟨h⟩ := h
  cases h with
  | castInt h | castFloat h =>
    obtain ⟨_, _, h, -⟩ := h
    exact h.valid
  | extend h => exact h
  | reduce hlow hhigh | bitSet hlow hhigh => exact ⟨hlow, hhigh⟩
  | none h => exact valid_of_ofKind? (ofKind?_eq_some_iff.mpr ⟨rfl, h⟩)

/-- An operation without parameters is read from no parts. -/
theorem ofParameters_of_notMem (h : k ∉ OperationKind.parametric) (d : Datum) :
    ofParameters k d = (do Datum.toUnit d; Datum.required (ofKind? k)) := by
  cases k with
  | castInt | castFloat | extendWithZero | extendWithSign | reduce | bitSet =>
    exact absurd (by decide) h
  | _ => rfl

/-- The parameters are read in the form that the kind asks for. -/
theorem ofParameters_eq_ok_iff :
    ofParameters k d = .ok op ↔ op.kind = k ∧ d.Describes Parameters op := by
  have hint := Datum.accepts_toOne "to" IntType.accepts_ofDatum d
  have hfloat := Datum.accepts_toOne "to" FloatType.accepts_ofDatum d
  have hbits := Datum.accepts_toOne "extension" Datum.accepts_toWord d
  have hrange := Datum.accepts_toPair "low" "high" Datum.accepts_toWord Datum.accepts_toWord d
  constructor
  · intro h
    by_cases hk : k ∈ OperationKind.parametric
    · simp only [OperationKind.parametric, List.mem_cons, List.not_mem_nil, or_false] at hk
      rcases hk with rfl | rfl | rfl | rfl | rfl | rfl
      · obtain ⟨dest, hdest, rfl⟩ := map_eq_ok_iff.mp h
        obtain ⟨part, hparts, hform⟩ := (hint dest).mp hdest
        exact ⟨rfl, _, _, .castInt hform, hparts⟩
      · obtain ⟨dest, hdest, rfl⟩ := map_eq_ok_iff.mp h
        obtain ⟨part, hparts, hform⟩ := (hfloat dest).mp hdest
        exact ⟨rfl, _, _, .castFloat hform, hparts⟩
      · obtain ⟨n, hn, rfl⟩ := map_eq_ok_iff.mp h
        obtain ⟨_, hparts, rfl, hlt⟩ := (hbits n).mp hn
        exact ⟨rfl, _, _, .extend hlt, hparts⟩
      · obtain ⟨n, hn, rfl⟩ := map_eq_ok_iff.mp h
        obtain ⟨_, hparts, rfl, hlt⟩ := (hbits n).mp hn
        exact ⟨rfl, _, _, .extend hlt, hparts⟩
      · obtain ⟨⟨low, high⟩, hpair, heq⟩ := bind_eq_ok_iff.mp h
        cases pure_eq_ok_iff.mp heq
        obtain ⟨_, _, hparts, ⟨rfl, hlow⟩, rfl, hhigh⟩ := (hrange _).mp hpair
        exact ⟨rfl, _, _, .reduce hlow hhigh, hparts⟩
      · obtain ⟨⟨low, high⟩, hpair, heq⟩ := bind_eq_ok_iff.mp h
        cases pure_eq_ok_iff.mp heq
        obtain ⟨_, _, hparts, ⟨rfl, hlow⟩, rfl, hhigh⟩ := (hrange _).mp hpair
        exact ⟨rfl, _, _, .bitSet hlow hhigh, hparts⟩
    · rw [ofParameters_of_notMem hk] at h
      obtain ⟨_, hunit, hop⟩ := bind_eq_ok_iff.mp h
      obtain ⟨rfl, -⟩ := ofKind?_eq_some_iff.mp (Datum.required_eq_ok_iff.mp hop)
      exact ⟨rfl, _, _, .none hk, (Datum.accepts_toUnit d _).mp hunit⟩
  · rintro ⟨rfl, _, _, hform, hparts⟩
    cases hform with
    | castInt h => exact map_eq_ok_iff.mpr ⟨_, (hint _).mpr ⟨_, hparts, h⟩, rfl⟩
    | castFloat h => exact map_eq_ok_iff.mpr ⟨_, (hfloat _).mpr ⟨_, hparts, h⟩, rfl⟩
    | @extend fill n h =>
      have hn := (hbits n).mpr ⟨_, hparts, rfl, h⟩
      cases fill
      · exact map_eq_ok_iff.mpr ⟨n, hn, rfl⟩
      · exact map_eq_ok_iff.mpr ⟨n, hn, rfl⟩
    | @reduce low high hlow hhigh | @bitSet low high hlow hhigh =>
      have hpair := (hrange (low, high)).mpr ⟨_, _, hparts, ⟨rfl, hlow⟩, rfl, hhigh⟩
      exact bind_eq_ok_iff.mpr ⟨(low, high), hpair, rfl⟩
    | none h =>
      rw [ofParameters_of_notMem h, (Datum.accepts_toUnit d ()).mpr hparts,
        ofKind?_eq_some_iff.mpr ⟨rfl, h⟩]
      rfl

/-- An operation is read from its tag, and its parameters from the parts under the tag. -/
theorem accepts_ofDatum : Reader.Accepts ofDatum (Datum.Describes Form) := by
  intro d op
  simp only [ofDatum, bind_eq_ok_iff, Prod.exists, OperationKind.named_tag_iff,
    ofParameters_eq_ok_iff]
  constructor
  · rintro ⟨_, rest, htag, _, rfl, rfl, names, parts, hform, hparts⟩
    rw [OperationKind.tag_eq_snakeCase] at htag
    exact ⟨_, _, .mk hform, Datum.toTagged_hasParts_iff.mp ⟨rest, htag, hparts⟩⟩
  · rintro ⟨_, _, ⟨hform⟩, hparts⟩
    obtain ⟨rest, htag, hrest⟩ := Datum.toTagged_hasParts_iff.mpr hparts
    exact ⟨_, rest, htag, op.kind, op.kind.tag_eq_snakeCase, rfl, _, _, hform, hrest⟩

/-- The parameters are written in their form. -/
theorem exists_parameters (h : op.Valid) :
    ∃ names parts, op.Parameters names parts ∧ op.toDatum.HasParts names parts := by
  rcases op.parametric_cases with ⟨hk, -⟩ | ⟨-, ⟨dest, rfl⟩ | ⟨dest, rfl⟩ | ⟨fill, n, rfl⟩ |
    ⟨low, high, rfl⟩ | ⟨low, high, rfl⟩⟩
  · exact ⟨_, _, .none hk, by simp [toDatum]⟩
  · exact ⟨_, _, .castInt (IntType.describes_toDatum dest), by simp [toDatum, fields, List.lookup]⟩
  · exact ⟨_, _, .castFloat (FloatType.describes_toDatum dest),
      by simp [toDatum, fields, List.lookup]⟩
  · exact ⟨_, _, .extend h, by simp [toDatum, fields, List.lookup]⟩
  · exact ⟨_, _, .reduce h.1 h.2, by simp [toDatum, fields, List.lookup]⟩
  · exact ⟨_, _, .bitSet h.1 h.2, by simp [toDatum, fields, List.lookup]⟩

/-- Operations are told by their data. -/
theorem faithful : Faithful Valid toDatum ofDatum Form := by
  refine .of_accepts accepts_ofDatum ?_ fun _ _ _ => Form.valid
  intro op hop
  obtain ⟨names, parts, hform, hparts⟩ := exists_parameters hop
  refine ⟨_, _, .mk hform, Datum.hasParts_record_cons.mpr ⟨?_, hparts⟩⟩
  rw [List.lookup_cons_self, OperationKind.tag_eq_snakeCase]

end Operation

/-! ### Parameters -/

namespace LatticePolicy

/-- The bound for trusted operands is not the coarser one. -/
def Valid (p : LatticePolicy) : Prop :=
  p.sure.rank ≤ p.may.rank

/-- A policy is its two bounds, in order. -/
inductive Form : LatticePolicy → List String → List Datum → Prop
  | mk {sure may : Creation} {d e : Datum} (hsure : d.Names Creation.name sure)
    (hmay : e.Names Creation.name may) (h : sure.rank ≤ may.rank) :
    Form ⟨sure, may, h⟩ ["sure", "may"] [d, e]

/-- Two bounds are accepted for the one policy that has them, and refused out of order. -/
theorem ofBounds_eq_ok_iff {sure may : Creation} {p : LatticePolicy} :
    ofBounds sure may = .ok p ↔ p.sure = sure ∧ p.may = may := by
  rw [ofBounds, ofBounds?]
  split_ifs with h
  · cases p
    simp [eq_comm]
  · constructor
    · rintro ⟨⟩
    · rintro ⟨rfl, rfl⟩
      exact absurd p.sure_le_may h

/-- A bound is read by its name. -/
theorem accepts_bound :
    Reader.Accepts (Datum.toMember Creation.all Creation.name) (Datum.Names Creation.name) := by
  refine Datum.accepts_toMember (by decide) ?_
  rintro (_ | _) <;> decide

/-- A policy is read from its two bounds. -/
theorem accepts_ofDatum : Reader.Accepts ofDatum (Datum.Describes Form) := by
  intro d p
  have hpair := Datum.accepts_toPair "sure" "may" accepts_bound accepts_bound d
  simp only [ofDatum, bind_eq_ok_iff, hpair, checkRead_eq_ok_iff, ofBounds_eq_ok_iff]
  constructor
  · rintro ⟨v, ⟨_, _, hparts, hsure, hmay⟩, heqSure, heqMay⟩
    rw [← heqSure] at hsure
    rw [← heqMay] at hmay
    exact ⟨_, _, .mk hsure hmay p.sure_le_may, hparts⟩
  · rintro ⟨_, _, ⟨hsure, hmay, h⟩, hparts⟩
    exact ⟨(_, _), ⟨_, _, hparts, hsure, hmay⟩, rfl, rfl⟩

theorem describes_toDatum (p : LatticePolicy) : p.toDatum.Describes Form p :=
  ⟨_, _, .mk (.inl rfl) (.inl rfl) p.sure_le_may, by simp [toDatum, List.lookup]⟩

/-- Policies are told by their data. -/
theorem faithful : Faithful Valid toDatum ofDatum Form := by
  refine .of_accepts accepts_ofDatum (fun p _ => p.describes_toDatum) ?_
  rintro _ _ _ ⟨-, -, h⟩
  exact h

end LatticePolicy

namespace Params

/-- The policy is valid and the depth a number of 32 bits. -/
def Valid (p : Params) : Prop :=
  p.policy.Valid ∧ p.maxDepth < 2 ^ 32

/-- Parameters are described by all four of their parts. -/
inductive Form : Params → List String → List Datum → Prop
  | mk {p : Params} {information errors policy : Datum}
    (hinformation : information.Names Information.name p.information)
    (herrors : errors.Names ErrorPolicy.name p.errors)
    (hpolicy : policy.Describes LatticePolicy.Form p.policy) (hdepth : p.maxDepth < 2 ^ 32) :
    Form p ["information", "errors", "policy", "max_depth"]
      [information, errors, policy, .count p.maxDepth]

/-- The amount of information is read by its name. -/
theorem accepts_information : Reader.Accepts (Datum.toMember Information.all Information.name)
    (Datum.Names Information.name) := by
  refine Datum.accepts_toMember (by decide) ?_
  rintro (_ | _) <;> decide

theorem accepts_errors : Reader.Accepts (Datum.toMember ErrorPolicy.all ErrorPolicy.name)
    (Datum.Names ErrorPolicy.name) := by
  refine Datum.accepts_toMember (by decide) ?_
  rintro (_ | _) <;> decide

/-- The form of parameters, with the policy described by its own form. -/
theorem describes_iff {d : Datum} {p : Params} : d.Describes Form p ↔
    ∃ information errors policy, d.HasParts ["information", "errors", "policy", "max_depth"]
      [information, errors, policy, .count p.maxDepth] ∧
      information.Names Information.name p.information ∧ errors.Names ErrorPolicy.name p.errors ∧
      policy.Describes LatticePolicy.Form p.policy ∧ p.maxDepth < 2 ^ 32 := by
  constructor
  · rintro ⟨_, _, ⟨hinformation, herrors, hpolicy, hdepth⟩, hparts⟩
    exact ⟨_, _, _, hparts, hinformation, herrors, hpolicy, hdepth⟩
  · rintro ⟨_, _, _, hparts, hinformation, herrors, hpolicy, hdepth⟩
    exact ⟨_, _, .mk hinformation herrors hpolicy hdepth, hparts⟩

/-- Parameters are read from their four parts. -/
theorem accepts_ofDatum : Reader.Accepts ofDatum (Datum.Describes Form) := by
  intro d p
  rw [describes_iff]
  cases d with
  | record fields =>
    simp only [ofDatum, bind_eq_ok_iff, Datum.required_eq_ok_iff, pure_eq_ok_iff,
      Datum.hasParts_record_cons, Datum.hasParts_record_nil, and_true]
    constructor
    · rintro ⟨_, herrors, _, hinformation, _, hdepth, _, hpolicy, _, rfl, _, rfl, _, rfl, _, rfl,
        rfl⟩
      obtain ⟨errors, he, hferrors⟩ := (Datum.field?_eq_ok_some_iff accepts_errors).mp herrors
      obtain ⟨information, hi, hfinformation⟩ :=
        (Datum.field?_eq_ok_some_iff accepts_information).mp hinformation
      obtain ⟨_, hd, rfl, hfdepth⟩ := (Datum.field?_eq_ok_some_iff Datum.accepts_toWord).mp hdepth
      obtain ⟨policy, hp, hfpolicy⟩ :=
        (Datum.field?_eq_ok_some_iff LatticePolicy.accepts_ofDatum).mp hpolicy
      exact ⟨information, errors, policy, ⟨hi, he, hp, hd⟩, hfinformation, hferrors, hfpolicy,
        hfdepth⟩
    · rintro ⟨information, errors, policy, ⟨hi, he, hp, hd⟩, hinformation, herrors, hpolicy, hdepth⟩
      refine ⟨_, (Datum.field?_eq_ok_some_iff accepts_errors).mpr ⟨_, he, herrors⟩,
        _, (Datum.field?_eq_ok_some_iff accepts_information).mpr ⟨_, hi, hinformation⟩,
        _, (Datum.field?_eq_ok_some_iff Datum.accepts_toWord).mpr ⟨_, hd, rfl, hdepth⟩,
        _, (Datum.field?_eq_ok_some_iff LatticePolicy.accepts_ofDatum).mpr ⟨_, hp, hpolicy⟩, ?_⟩
      exact ⟨_, rfl, _, rfl, _, rfl, _, rfl, rfl⟩
  | list items =>
    simp only [ofDatum, bind_eq_ok_iff, Prod.exists, Datum.next_eq_ok_iff accepts_information,
      Datum.next_eq_ok_iff accepts_errors, Datum.next_eq_ok_iff LatticePolicy.accepts_ofDatum,
      Datum.next_eq_ok_iff Datum.accepts_toWord, Datum.done_eq_ok_iff, pure_eq_ok_iff,
      Datum.hasParts_list]
    constructor
    · rintro ⟨_, _, ⟨information, rfl, hinformation⟩, _, _, ⟨errors, rfl, herrors⟩, _, _,
        ⟨policy, rfl, hpolicy⟩, _, _, ⟨_, rfl, rfl, hdepth⟩, _, rfl, rfl⟩
      exact ⟨information, errors, policy, ⟨rfl, rfl⟩, hinformation, herrors, hpolicy, hdepth⟩
    · rintro ⟨information, errors, policy, ⟨rfl, -⟩, hinformation, herrors, hpolicy, hdepth⟩
      exact ⟨_, _, ⟨information, rfl, hinformation⟩, _, _, ⟨errors, rfl, herrors⟩, _, _,
        ⟨policy, rfl, hpolicy⟩, _, _, ⟨_, rfl, rfl, hdepth⟩, (), rfl, rfl⟩
  | _ => simp [ofDatum, Datum.HasParts]

/-- Parameters are told by their data. -/
theorem faithful : Faithful Valid toDatum ofDatum Form := by
  refine .of_accepts accepts_ofDatum ?_ ?_
  · rintro p ⟨-, hdepth⟩
    refine ⟨_, _, .mk (.inl rfl) (.inl rfl) p.policy.describes_toDatum hdepth, ?_⟩
    simp [toDatum, List.lookup]
  · rintro p _ _ ⟨-, -, -, hdepth⟩
    exact ⟨p.policy.sure_le_may, hdepth⟩

end Params

/-- Descriptions of types, operations and parameters follow their grammars. Every value with
parameters of 32 bits is read back from what is written for it, different values are written
differently, and what is read has its widths and bounds in range, at every depth. -/
theorem descriptions_faithful :
    Faithful IntType.Valid IntType.toDatum IntType.ofDatum IntType.Form ∧
    Faithful FloatType.Valid FloatType.toDatum FloatType.ofDatum FloatType.Form ∧
    Faithful ScalarType.Valid ScalarType.toDatum ScalarType.ofDatum ScalarType.Form ∧
    Faithful Operation.Valid Operation.toDatum Operation.ofDatum Operation.Form ∧
    Faithful LatticePolicy.Valid LatticePolicy.toDatum LatticePolicy.ofDatum LatticePolicy.Form ∧
    Faithful Params.Valid Params.toDatum Params.ofDatum Params.Form :=
  ⟨IntType.faithful, FloatType.faithful, ScalarType.faithful, Operation.faithful,
    LatticePolicy.faithful, Params.faithful⟩

end ScalarDomain
