import Script.Table
import Mathlib.Data.List.Basic

/-! # Lookup in tables

What an insertion does to lookups, whatever the order of the entries, and that it keeps them in
order. -/

namespace Script

theorem Text.compare_eq_iff (s t : Text) : Text.compare s t = .eq ↔ s = t := by
  induction s generalizing t with
  | nil => cases t <;> simp [Text.compare]
  | cons a s ih =>
      cases t with
      | nil => simp [Text.compare]
      | cons b t =>
          simp only [Text.compare, List.cons.injEq]
          by_cases hab : a < b
          · simp [hab, UInt8.ne_of_lt hab]
          · by_cases hba : b < a
            · simp [hab, hba, (UInt8.ne_of_lt hba).symm]
            · have heq : a = b := UInt8.le_antisymm (UInt8.not_lt.mp hba) (UInt8.not_lt.mp hab)
              simp [heq, UInt8.lt_irrefl, ih]

theorem Text.compare_eq (s t : Text) : Text.compare s t = Ord.compare s t := by
  induction s generalizing t with
  | nil => cases t <;> rfl
  | cons a s ih =>
    cases t with
    | nil => rfl
    | cons b t =>
      rw [List.compare_cons_cons, ← ih]
      change _ = (compareOfLessAndEq a b).then _
      simp only [Text.compare, compareOfLessAndEq]
      by_cases hab : a < b
      · simp [hab]
      · by_cases hba : b < a
        · simp [hab, hba, (UInt8.ne_of_lt hba).symm]
        · have heq : a = b := UInt8.le_antisymm (UInt8.not_lt.mp hba) (UInt8.not_lt.mp hab)
          simp [heq, UInt8.lt_irrefl]

theorem Text.compare_lt_trans {s t u : Text} (h : Text.compare s t = .lt)
    (h' : Text.compare t u = .lt) : Text.compare s u = .lt := by
  rw [Text.compare_eq] at *
  exact Std.TransCmp.lt_trans h h'

theorem Text.compare_lt_of_gt {s t : Text} (h : Text.compare s t = .gt) :
    Text.compare t s = .lt := by
  rw [Text.compare_eq] at *
  exact Std.OrientedCmp.lt_of_gt h

theorem Text.compare_gt_of_lt {s t : Text} (h : Text.compare s t = .lt) :
    Text.compare t s = .gt := by
  rw [Text.compare_eq] at *
  exact Std.OrientedCmp.gt_of_lt h

namespace Table

variable {α : Type}

theorem get?_insert (name x : Text) (value : α) (t : Table α) :
    get? (insert name value t) x = if name = x then some value else get? t x := by
  induction t with
  | nil => rfl
  | cons entry rest ih =>
      obtain ⟨key, old⟩ := entry
      simp only [insert]
      cases h : Text.compare name key with
      | lt => rfl
      | eq =>
          obtain rfl := (Text.compare_eq_iff name key).mp h
          simp only [get?]
          split <;> rfl
      | gt =>
          have hne : name ≠ key := by
            intro he
            simp [(Text.compare_eq_iff name key).mpr he] at h
          simp only [get?, ih]
          by_cases hx : key = x
          · subst hx
            simp [hne]
          · simp [hx]

theorem get?_insert_of_ne {name x : Text} (h : name ≠ x) (value : α) (t : Table α) :
    get? (insert name value t) x = get? t x := by
  rw [get?_insert, if_neg h]

theorem contains_insert {t : Table α} {name : Text} (h : t.contains name) (key : Text) (value : α) :
    contains (insert key value t) name := by
  unfold contains at h ⊢
  rw [get?_insert]
  split
  · rfl
  · exact h

theorem insert_insert (name : Text) (value old : α) (t : Table α) :
    insert name value (insert name old t) = insert name value t := by
  have hself : Text.compare name name = .eq := (Text.compare_eq_iff name name).mpr rfl
  induction t with
  | nil => simp [insert, hself]
  | cons entry rest ih =>
      obtain ⟨key, first⟩ := entry
      cases h : Text.compare name key with
      | lt => simp [insert, h, hself]
      | eq => simp [insert, h, hself]
      | gt => simp [insert, h, ih]

theorem get?_append (t t' : Table α) (name : Text) :
    get? (t ++ t') name = (get? t name).or (get? t' name) := by
  induction t with
  | nil => rfl
  | cons entry rest ih =>
      simp only [List.cons_append, get?, ih]
      split <;> rfl

theorem mem_of_get? {t : Table α} {name : Text} {value : α} (h : get? t name = some value) :
    (name, value) ∈ t := by
  induction t with
  | nil => cases h
  | cons entry rest ih =>
      obtain ⟨key, old⟩ := entry
      simp only [get?] at h
      split at h
      · rename_i heq
        cases h
        simp [heq]
      · exact List.mem_cons_of_mem _ (ih h)

theorem mem_insert {entry : Text × α} {name : Text} {value : α} {t : Table α}
    (h : entry ∈ insert name value t) : entry = (name, value) ∨ entry ∈ t := by
  induction t with
  | nil => simpa [insert] using h
  | cons head rest ih =>
      obtain ⟨key, old⟩ := head
      simp only [insert] at h
      split at h
      · simpa using h
      · rcases List.mem_cons.mp h with h | h
        · exact .inl h
        · exact .inr (List.mem_cons_of_mem _ h)
      · rcases List.mem_cons.mp h with h | h
        · exact .inr (by simp [h])
        · rcases ih h with h | h
          · exact .inl h
          · exact .inr (List.mem_cons_of_mem _ h)

/-- Every entry has a property. -/
def Each (P : α → Prop) (t : Table α) : Prop :=
  ∀ entry ∈ t, P entry.2

theorem Each.nil (P : α → Prop) : Each P [] := by
  simp [Each]

theorem Each.insert {P : α → Prop} {t : Table α} (ht : Each P t) (name : Text) {value : α}
    (hv : P value) : Each P (insert name value t) := by
  intro entry he
  rcases mem_insert he with rfl | he
  · exact hv
  · exact ht entry he

theorem Each.ofList {P : α → Prop} (entries : List (Text × α)) (h : ∀ entry ∈ entries, P entry.2) :
    Each P (ofList entries) := by
  have hfold : ∀ (t : Table α), Each P t →
      Each P (entries.foldl (fun t entry => Table.insert entry.1 entry.2 t) t) := by
    induction entries with
    | nil => exact fun t ht => ht
    | cons entry rest ih =>
        intro t ht
        have hrest : ∀ e ∈ rest, P e.2 := fun e he => h e (List.mem_cons_of_mem _ he)
        exact ih hrest _ (ht.insert entry.1 (h entry List.mem_cons_self))
  exact hfold [] (Each.nil P)

theorem Each.get? {P : α → Prop} {t : Table α} (ht : Each P t) {name : Text} {value : α}
    (h : get? t name = some value) : P value :=
  ht _ (mem_of_get? h)

/-! ## Order -/

/-- The names are in order, each of them once. -/
def Sorted (t : Table α) : Prop :=
  t.Pairwise fun x y => Text.compare x.1 y.1 = .lt

theorem Sorted.insert {t : Table α} (h : Sorted t) (name : Text) (value : α) :
    Sorted (insert name value t) := by
  induction t with
  | nil => exact List.pairwise_singleton _ _
  | cons head rest ih =>
      obtain ⟨key, old⟩ := head
      obtain ⟨hfirst, hrest⟩ := List.pairwise_cons.mp h
      simp only [Table.insert]
      cases hcmp : Text.compare name key with
      | lt =>
          refine List.pairwise_cons.mpr ⟨fun entry he => ?_, h⟩
          rcases List.mem_cons.mp he with rfl | he
          · exact hcmp
          · exact Text.compare_lt_trans hcmp (hfirst entry he)
      | eq =>
          obtain rfl := (Text.compare_eq_iff name key).mp hcmp
          exact List.pairwise_cons.mpr ⟨hfirst, hrest⟩
      | gt =>
          refine List.pairwise_cons.mpr ⟨fun entry he => ?_, ih hrest⟩
          rcases mem_insert he with rfl | he
          · exact Text.compare_lt_of_gt hcmp
          · exact hfirst entry he

/-- Where the names are in order, an entry that is there is replaced at its place. -/
theorem Sorted.insert_eq {t : Table α} (h : Sorted t) {name : Text} {old : α}
    (hget : Table.get? t name = some old) :
    ∃ before after, t = before ++ (name, old) :: after ∧
      (∀ entry ∈ before, entry.1 ≠ name) ∧
      ∀ value, Table.insert name value t = before ++ (name, value) :: after := by
  induction t with
  | nil => cases hget
  | cons head rest ih =>
      obtain ⟨key, first⟩ := head
      obtain ⟨hfirst, hrest⟩ := List.pairwise_cons.mp h
      by_cases hkey : key = name
      · subst hkey
        simp only [Table.get?, if_pos, Option.some.injEq] at hget
        subst hget
        refine ⟨[], rest, rfl, by simp, fun value => ?_⟩
        simp [Table.insert, (Text.compare_eq_iff key key).mpr rfl]
      · simp only [Table.get?, if_neg hkey] at hget
        obtain ⟨before, after, rfl, hbefore, hinsert⟩ := ih hrest hget
        have hlt : Text.compare key name = .lt := hfirst (name, old) (by simp)
        refine ⟨(key, first) :: before, after, rfl, List.forall_mem_cons.mpr ⟨hkey, hbefore⟩,
          fun value => ?_⟩
        simp [Table.insert, Text.compare_gt_of_lt hlt, hinsert value]

end Table

end Script
