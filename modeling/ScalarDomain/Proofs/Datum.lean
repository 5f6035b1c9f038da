import Mathlib
import ScalarDomain.Datum

/-!
# What readers accept

A reader is specified by the data it accepts: `Reader.Accepts read P` says that it gives a value
exactly for the data that stand for the value under the relation `P`. Each way of reading parts has
a lemma that turns relations for the parts into one for the whole. Both ways of laying out parts, in
a record under their names or in a list in their order, are one relation, `Datum.HasParts`; a tag is
then nothing but one more part in front of the others (`Datum.toTagged_hasParts_iff`).
-/

namespace ScalarDomain

section Failure

variable {ε α β : Type} {x : Except ε α}

/-- A computation that goes on succeeds when both parts do. -/
theorem bind_eq_ok_iff {f : α → Except ε β} {b : β} :
    (x >>= f) = .ok b ↔ ∃ a, x = .ok a ∧ f a = .ok b := by
  cases x <;> simp [bind, Except.bind]

theorem pure_eq_ok_iff {a b : α} : (pure a : Except ε α) = .ok b ↔ a = b := by
  simp [pure, Except.pure]

theorem map_eq_ok_iff {f : α → β} {b : β} : x.map f = .ok b ↔ ∃ a, x = .ok a ∧ f a = b := by
  cases x <;> simp [Except.map]

/-- Reading keeps the checked value and forgets why there is none. -/
theorem checkRead_eq_ok_iff {x : Except Error α} {a : α} : checkRead x = .ok a ↔ x = .ok a := by
  cases x <;> simp [checkRead]

end Failure

/-- The reader gives a value exactly for the data that stand for it. -/
def Reader.Accepts {α : Type} (read : Reader α) (P : Datum → α → Prop) : Prop :=
  ∀ d a, read d = .ok a ↔ P d a

namespace Datum

variable {α β : Type} {read : Reader α} {P : Datum → α → Prop}

/-! ### Single data -/

/-- Counts are read if they stay below the bound. -/
theorem accepts_toCount (bound : ℕ) :
    Reader.Accepts (toCount bound) fun d n => d = .count n ∧ n < bound := by
  intro d n
  constructor
  · intro h
    unfold toCount at h
    split at h
    · split_ifs at h with hm
      cases h
      exact ⟨by rw [count, Int.toNat_of_nonneg hm.1], by omega⟩
    · cases h
  · rintro ⟨rfl, h⟩
    simp [toCount, count, h]

/-- Counts that 32 bits hold. -/
theorem accepts_toWord : Reader.Accepts toWord fun d n => d = .count n ∧ n < 2 ^ 32 :=
  accepts_toCount (twoPow 32)

theorem accepts_toBool : Reader.Accepts toBool fun d b => d = .bool b := by
  intro d b
  cases d <;> simp [toBool]

/-- A name that no two members share is the name of one of them. -/
theorem named_eq_ok_iff {all : List α} {name : α → String} {s : String} {a : α}
    (hnodup : (all.map name).Nodup) : named all name s = .ok a ↔ a ∈ all ∧ name a = s := by
  have hfind : all.find? (name · == s) = some a ↔ a ∈ all ∧ name a = s := by
    constructor
    · intro h
      exact ⟨List.mem_of_find?_eq_some h, by simpa using List.find?_some h⟩
    · rintro ⟨ha, rfl⟩
      obtain ⟨b, hb⟩ := Option.isSome_iff_exists.mp
        (List.find?_isSome (p := (name · == name a)).mpr ⟨a, ha, by simp⟩)
      have hname : name b = name a := by simpa using List.find?_some hb
      rw [hb, List.inj_on_of_nodup_map hnodup (List.mem_of_find?_eq_some hb) ha hname]
  rw [named, ← hfind]
  cases all.find? (name · == s) <;> simp

/-- A member of an enumeration: its name, or a record with the name as the only field. -/
def Names (name : α → String) (d : Datum) (a : α) : Prop :=
  d = .text (name a) ∨ d = .record [(name a, .null)]

/-- A member of a list is read by its name, provided that no two members share one. -/
theorem accepts_toMember {all : List α} {name : α → String} (hnodup : (all.map name).Nodup)
    (hall : ∀ a, a ∈ all) : Reader.Accepts (toMember all name) (Names name) := by
  intro d a
  unfold toMember
  split
  · rw [named_eq_ok_iff hnodup]
    simp [Names, hall, eq_comm]
  · rw [named_eq_ok_iff hnodup]
    simp [Names, hall, eq_comm]
  · rename_i htext hrecord
    constructor
    · rintro ⟨⟩
    rintro (rfl | rfl)
    · exact absurd rfl (htext _)
    · exact absurd rfl (hrecord _)

/-! ### Parts -/

/-- The parts of a datum: the fields of a record with the given names, or all items of a list. -/
def HasParts : Datum → List String → List Datum → Prop
  | record fields, names, parts =>
    List.Forall₂ (fun name part => fields.lookup name = some part) names parts
  | list items, names, parts => items = parts ∧ parts.length = names.length
  | _, _, _ => False

section Parts

variable {fields : List (String × Datum)} {items parts : List Datum} {names : List String}
  {name : String} {part : Datum}

@[simp] theorem hasParts_record_nil : (record fields).HasParts [] parts ↔ parts = [] := by
  simp [HasParts]

/-- The fields of a record are looked up by name, in any order. -/
@[simp] theorem hasParts_record_cons : (record fields).HasParts (name :: names) (part :: parts) ↔
    fields.lookup name = some part ∧ (record fields).HasParts names parts := by
  simp [HasParts]

/-- A list gives the parts by position, and has no others. -/
@[simp] theorem hasParts_list :
    (list items).HasParts names parts ↔ items = parts ∧ parts.length = names.length :=
  Iff.rfl

end Parts

/-! ### Reading parts -/

theorem required_eq_ok_iff {o : Option α} {a : α} : required o = .ok a ↔ o = some a := by
  cases o <;> simp [required]

theorem done_eq_ok_iff {items : List Datum} {u : Unit} :
    done items = .ok u ↔ items = [] := by
  cases items <;> simp [done]

/-- A field is read if it is there and its datum is. -/
theorem field?_eq_ok_some_iff {fields : List (String × Datum)} {name : String} {a : α}
    (h : Reader.Accepts read P) :
    field? fields name read = .ok (some a) ↔ ∃ d, fields.lookup name = some d ∧ P d a := by
  rw [field?]
  cases fields.lookup name with
  | none => simp
  | some d => simp [map_eq_ok_iff, h d]

/-- The next item of a list is read if there is one. -/
theorem next_eq_ok_iff {items rest : List Datum} {a : α} (h : Reader.Accepts read P) :
    next read items = .ok (a, rest) ↔ ∃ d, items = d :: rest ∧ P d a := by
  cases items with
  | nil => simp [next]
  | cons d tail => simp [next, map_eq_ok_iff, h d, and_comm]

/-- No parts: an empty list, or any record. -/
theorem accepts_toUnit : Reader.Accepts toUnit fun d _ => d.HasParts [] [] := by
  intro d u
  cases d with
  | record => simp [toUnit]
  | list => simp [toUnit, done_eq_ok_iff]
  | _ => simp [toUnit, HasParts]

/-- One part, named in a record or alone in a list. -/
theorem accepts_toOne (name : String) (h : Reader.Accepts read P) :
    Reader.Accepts (toOne name read) fun d a => ∃ part, d.HasParts [name] [part] ∧ P part a := by
  intro d a
  cases d with
  | record fields => simp [toOne, bind_eq_ok_iff, required_eq_ok_iff, field?_eq_ok_some_iff h]
  | list items =>
    simp only [toOne, bind_eq_ok_iff, Prod.exists, next_eq_ok_iff h, done_eq_ok_iff, pure_eq_ok_iff,
      hasParts_list]
    constructor
    · rintro ⟨_, _, ⟨part, rfl, hpart⟩, _, rfl, rfl⟩
      exact ⟨part, ⟨rfl, rfl⟩, hpart⟩
    · rintro ⟨part, ⟨rfl, -⟩, hpart⟩
      exact ⟨a, [], ⟨part, rfl, hpart⟩, (), rfl, rfl⟩
  | _ => simp [toOne, HasParts]

/-- Two parts, named in a record or in order in a list. -/
theorem accepts_toPair {readSecond : Reader β} {Q : Datum → β → Prop} (first second : String)
    (h : Reader.Accepts read P) (hsecond : Reader.Accepts readSecond Q) :
    Reader.Accepts (toPair first read second readSecond) fun d v =>
      ∃ part rest, d.HasParts [first, second] [part, rest] ∧ P part v.1 ∧ Q rest v.2 := by
  rintro d ⟨a, b⟩
  cases d with
  | record fields =>
    -- the order in which the fields are read only matters for the failure that is found first
    have hparts : toPair first read second readSecond (record fields) = .ok (a, b) ↔
        field? fields first read = .ok (some a) ∧
          field? fields second readSecond = .ok (some b) := by
      unfold toPair
      split_ifs <;>
        simp only [bind_eq_ok_iff, required_eq_ok_iff, pure_eq_ok_iff, Prod.mk.injEq]
      · constructor
        · rintro ⟨_, ha, _, hb, _, rfl, _, rfl, rfl, rfl⟩
          exact ⟨ha, hb⟩
        · rintro ⟨ha, hb⟩
          exact ⟨_, ha, _, hb, a, rfl, b, rfl, rfl, rfl⟩
      · constructor
        · rintro ⟨_, hb, _, ha, _, rfl, _, rfl, rfl, rfl⟩
          exact ⟨ha, hb⟩
        · rintro ⟨ha, hb⟩
          exact ⟨_, hb, _, ha, a, rfl, b, rfl, rfl, rfl⟩
    rw [hparts, field?_eq_ok_some_iff h, field?_eq_ok_some_iff hsecond]
    simp only [hasParts_record_cons, hasParts_record_nil, and_true]
    constructor
    · rintro ⟨⟨part, hpart, ha⟩, rest, hrest, hb⟩
      exact ⟨part, rest, ⟨hpart, hrest⟩, ha, hb⟩
    · rintro ⟨part, rest, ⟨hpart, hrest⟩, ha, hb⟩
      exact ⟨⟨part, hpart, ha⟩, rest, hrest, hb⟩
  | list items =>
    simp only [toPair, bind_eq_ok_iff, Prod.exists, next_eq_ok_iff h, next_eq_ok_iff hsecond,
      done_eq_ok_iff, pure_eq_ok_iff, Prod.mk.injEq, hasParts_list]
    constructor
    · rintro ⟨_, _, ⟨part, rfl, ha⟩, _, _, ⟨rest, rfl, hb⟩, _, rfl, rfl, rfl⟩
      exact ⟨part, rest, ⟨rfl, rfl⟩, ha, hb⟩
    · rintro ⟨part, rest, ⟨rfl, -⟩, ha, hb⟩
      exact ⟨a, [rest], ⟨part, rfl, ha⟩, b, [], ⟨rest, rfl, hb⟩, (), rfl, rfl, rfl⟩
  | _ => simp [toPair, HasParts]

/-- A tag is a part in front of the others. -/
theorem toTagged_hasParts_iff {d : Datum} {name tag : String} {names : List String}
    {parts : List Datum} :
    (∃ rest, toTagged name d = .ok (tag, rest) ∧ rest.HasParts names parts) ↔
      d.HasParts (name :: names) (.text tag :: parts) := by
  cases d with
  | record fields =>
    simp only [toTagged, hasParts_record_cons]
    split
    · rename_i found htag
      rw [htag]
      simp
    · rename_i hno
      constructor
      · rintro ⟨_, ⟨⟩, _⟩
      · rintro ⟨htag, -⟩
        exact absurd htag (hno tag)
  | list items =>
    cases items with
    | nil => simp [toTagged]
    | cons d items =>
      cases d with
      | text s => simp [toTagged, and_assoc]
      | _ => simp [toTagged]
  | _ => simp [toTagged, HasParts]

end Datum

end ScalarDomain
