import Script.Engine.Slots
import Script.Proofs.Table
import Mathlib.Data.Finset.Card
import Mathlib.Order.Interval.Finset.Nat

/-!
# Values in the memory

A word stands for a value in a set of cells, its footprint: every array and object in the value has
a cell of its own there. What happens outside the footprint does not matter to the value.
-/

namespace Script

/-! ## Lists in parts of a footprint -/

/-- The members of two lists are related one by one, each pair in a part of the set for itself. -/
def Spread {α β : Type} (R : α → β → Finset Address → Prop) :
    List α → List β → Finset Address → Prop
  | [], ys, _ => ys = []
  | x :: xs, ys, S => ∃ y rest S₁ S₂, ys = y :: rest ∧ Disjoint S₁ S₂ ∧ S₁ ∪ S₂ ⊆ S ∧
    R x y S₁ ∧ Spread R xs rest S₂

namespace Spread

variable {α β : Type} {R : α → β → Finset Address → Prop} {xs : List α} {ys : List β}
  {S S' : Finset Address}

theorem mono (h : Spread R xs ys S) (hS : S ⊆ S') : Spread R xs ys S' := by
  cases xs with
  | nil => exact h
  | cons x xs =>
      obtain ⟨y, rest, S₁, S₂, hys, hdisjoint, hsub, hR⟩ := h
      exact ⟨y, rest, S₁, S₂, hys, hdisjoint, hsub.trans hS, hR⟩

theorem length_eq (h : Spread R xs ys S) : ys.length = xs.length := by
  induction xs generalizing ys S with
  | nil => exact congrArg List.length h
  | cons x xs ih =>
      obtain ⟨y, rest, S₁, S₂, rfl, -, -, -, hrest⟩ := h
      rw [List.length_cons, List.length_cons, ih hrest]

theorem imp {R' : α → β → Finset Address → Prop} (h : Spread R xs ys S)
    (hR : ∀ x ∈ xs, ∀ y T, T ⊆ S → R x y T → R' x y T) : Spread R' xs ys S := by
  induction xs generalizing ys S with
  | nil => exact h
  | cons x xs ih =>
      obtain ⟨y, rest, S₁, S₂, rfl, hparts, hsub, hx, hrest⟩ := h
      obtain ⟨h₁, h₂⟩ := Finset.union_subset_iff.mp hsub
      refine ⟨y, rest, S₁, S₂, rfl, hparts, hsub, hR x List.mem_cons_self y S₁ h₁ hx, ?_⟩
      exact ih hrest fun x' hx' y' T hT => hR x' (List.mem_cons_of_mem x hx') y' T (hT.trans h₂)

theorem append {xs' : List α} {ys' : List β} (h : Spread R xs ys S) (h' : Spread R xs' ys' S')
    (hdisjoint : Disjoint S S') : Spread R (xs ++ xs') (ys ++ ys') (S ∪ S') := by
  induction xs generalizing ys S with
  | nil =>
      rw [show ys = [] from h]
      exact h'.mono Finset.subset_union_right
  | cons x xs ih =>
      obtain ⟨y, rest, S₁, S₂, rfl, hparts, hsub, hx, hrest⟩ := h
      obtain ⟨h₁, h₂⟩ := Finset.union_subset_iff.mp hsub
      refine ⟨y, rest ++ ys', S₁, S₂ ∪ S', rfl, ?_, ?_, hx,
        ih hrest (hdisjoint.mono_left h₂)⟩
      · exact Finset.disjoint_union_right.mpr ⟨hparts, hdisjoint.mono_left h₁⟩
      · rw [← Finset.union_assoc]
        exact Finset.union_subset_union hsub Finset.Subset.rfl

theorem of_append {xs' : List α} (h : Spread R (xs ++ xs') ys S) :
    ∃ ys₁ ys₂ S₁ S₂, ys = ys₁ ++ ys₂ ∧ Disjoint S₁ S₂ ∧ S₁ ∪ S₂ ⊆ S ∧ Spread R xs ys₁ S₁ ∧
      Spread R xs' ys₂ S₂ := by
  induction xs generalizing ys S with
  | nil =>
      exact ⟨[], ys, ∅, S, rfl, Finset.disjoint_empty_left S, by simp, rfl, h⟩
  | cons x xs ih =>
      obtain ⟨y, rest, S₁, S₂, rfl, hparts, hsub, hx, hrest⟩ := h
      obtain ⟨ys₁, ys₂, T₁, T₂, rfl, hT, hTsub, h₁, h₂⟩ := ih hrest
      obtain ⟨hT₁, hT₂⟩ := Finset.union_subset_iff.mp hTsub
      refine ⟨y :: ys₁, ys₂, S₁ ∪ T₁, T₂, rfl, ?_, ?_,
        ⟨y, ys₁, S₁, T₁, rfl, hparts.mono_right hT₁, Finset.Subset.rfl, hx, h₁⟩, h₂⟩
      · exact Finset.disjoint_union_left.mpr ⟨hparts.mono_right hT₂, hT⟩
      · rw [Finset.union_assoc]
        exact (Finset.union_subset_union Finset.Subset.rfl hTsub).trans hsub

/-- A member can be looked at and exchanged by itself, together with its part of the set. -/
theorem focus {x : α} {xs' : List α} (h : Spread R (xs ++ x :: xs') ys S) :
    ∃ ys₁ y ys₂ S₁ S₂, ys = ys₁ ++ y :: ys₂ ∧ Disjoint S₁ S₂ ∧ S₁ ∪ S₂ ⊆ S ∧
      (∃ T, Spread R xs ys₁ T) ∧ R x y S₁ ∧
      ∀ {R' : α → β → Finset Address → Prop} {x' : α} {y' : β} {S' : Finset Address},
        (∀ x y T, T ⊆ S₂ → R x y T → R' x y T) → R' x' y' S' → Disjoint S' S₂ →
          Spread R' (xs ++ x' :: xs') (ys₁ ++ y' :: ys₂) (S' ∪ S₂) := by
  obtain ⟨ys₁, ys', S₁, S₂, rfl, hparts, hsub, hleft, y, ys₂, T₁, T₂, rfl, hT, hTsub, hx, hright⟩ :=
    h.of_append
  obtain ⟨hT₁, hT₂⟩ := Finset.union_subset_iff.mp hTsub
  obtain ⟨hS₁, hS₂⟩ := Finset.union_subset_iff.mp hsub
  refine ⟨ys₁, y, ys₂, T₁, S₁ ∪ T₂, rfl, ?_, ?_, ⟨S₁, hleft⟩, hx, ?_⟩
  · exact Finset.disjoint_union_right.mpr ⟨(hparts.mono_right hT₁).symm, hT⟩
  · exact Finset.union_subset (hT₁.trans hS₂) (Finset.union_subset hS₁ (hT₂.trans hS₂))
  · intro R' x' y' S' hR hx' hdisjoint
    obtain ⟨h₁, h₂⟩ := Finset.disjoint_union_right.mp hdisjoint
    have hleft' : Spread R' xs ys₁ S₁ :=
      hleft.imp fun x _ y T hTS => hR x y T (hTS.trans Finset.subset_union_left)
    have hright' : Spread R' xs' ys₂ T₂ :=
      hright.imp fun x _ y T hTS => hR x y T (hTS.trans Finset.subset_union_right)
    have hrest : Spread R' (x' :: xs') (y' :: ys₂) (S' ∪ T₂) :=
      ⟨y', ys₂, S', T₂, rfl, h₂, Finset.Subset.rfl, hx', hright'⟩
    have hapart : Disjoint S₁ (S' ∪ T₂) :=
      Finset.disjoint_union_right.mpr ⟨h₁.symm, hparts.mono_right hT₂⟩
    exact (hleft'.append hrest hapart).mono (Finset.union_left_comm S₁ S' T₂).subset

end Spread

/-! ## Depictions -/

mutual

/-- A word stands for a value, with all cells of the value in a set. The bodies of functions have
only statements of a certain kind, and the properties of objects are in order. -/
def Depicts (B : Stmt → Prop) (σ : Memory) : Value → Word → Finset Address → Prop
  | .null, w, _ => w = .null
  | .number x, w, _ => w = .number x
  | .string s, w, _ => w = .string s
  | .boolean b, w, _ => w = .boolean b
  | .array items, w, S => ∃ a words, w = .array a ∧ a ∈ S ∧ σ.cell? a = some (.items words) ∧
    DepictsItems B σ items words (S.erase a)
  | .nameRef name, w, _ => w = .nameRef name
  | .function f, w, _ => w = .function f ∧ ∀ s ∈ f.stmts, B s
  | .object fields, w, S => ∃ a entries, w = .object a ∧ a ∈ S ∧
    σ.cell? a = some (.fields entries) ∧ Table.Sorted fields ∧
    DepictsFields B σ fields entries (S.erase a)

def DepictsItems (B : Stmt → Prop) (σ : Memory) :
    List Value → List Word → Finset Address → Prop
  | [], words, _ => words = []
  | v :: rest, words, S => ∃ w others S₁ S₂, words = w :: others ∧ Disjoint S₁ S₂ ∧
    S₁ ∪ S₂ ⊆ S ∧ Depicts B σ v w S₁ ∧ DepictsItems B σ rest others S₂

def DepictsFields (B : Stmt → Prop) (σ : Memory) :
    List (Text × Value) → List (Text × Word) → Finset Address → Prop
  | [], entries, _ => entries = []
  | (key, v) :: rest, entries, S => ∃ entry others S₁ S₂, entries = entry :: others ∧
    Disjoint S₁ S₂ ∧ S₁ ∪ S₂ ⊆ S ∧ (entry.1 = key ∧ Depicts B σ v entry.2 S₁) ∧
    DepictsFields B σ rest others S₂

end

/-- An entry of a table stands for another one of the same name. -/
def DepictsEntry (B : Stmt → Prop) (σ : Memory) (x : Text × Value) (y : Text × Word)
    (S : Finset Address) : Prop :=
  y.1 = x.1 ∧ Depicts B σ x.2 y.2 S

section

variable {B : Stmt → Prop} {σ σ' : Memory} {v : Value} {w : Word} {S S' : Finset Address}

theorem depictsItems_iff {items : List Value} {words : List Word} :
    DepictsItems B σ items words S ↔ Spread (Depicts B σ) items words S := by
  induction items generalizing words S with
  | nil => exact Iff.rfl
  | cons v rest ih => simp only [DepictsItems, Spread, ih]

theorem depictsFields_iff {fields : List (Text × Value)} {entries : List (Text × Word)} :
    DepictsFields B σ fields entries S ↔ Spread (DepictsEntry B σ) fields entries S := by
  induction fields generalizing entries S with
  | nil => exact Iff.rfl
  | cons entry rest ih => simp only [DepictsFields, Spread, DepictsEntry, ih]

theorem depicts_array {items : List Value} : Depicts B σ (.array items) w S ↔
    ∃ a words, w = .array a ∧ a ∈ S ∧ σ.cell? a = some (.items words) ∧
      Spread (Depicts B σ) items words (S.erase a) := by
  simp only [Depicts, depictsItems_iff]

theorem depicts_object {fields : Table Value} : Depicts B σ (.object fields) w S ↔
    ∃ a entries, w = .object a ∧ a ∈ S ∧ σ.cell? a = some (.fields entries) ∧
      Table.Sorted fields ∧ Spread (DepictsEntry B σ) fields entries (S.erase a) := by
  simp only [Depicts, depictsFields_iff]

theorem Depicts.mono (h : Depicts B σ v w S) (hS : S ⊆ S') : Depicts B σ v w S' := by
  cases v with
  | array items =>
      obtain ⟨a, words, hw, ha, hcell, hitems⟩ := depicts_array.mp h
      exact depicts_array.mpr
        ⟨a, words, hw, hS ha, hcell, hitems.mono (Finset.erase_subset_erase a hS)⟩
  | object fields =>
      obtain ⟨a, entries, hw, ha, hcell, hsorted, hfields⟩ := depicts_object.mp h
      exact depicts_object.mpr
        ⟨a, entries, hw, hS ha, hcell, hsorted, hfields.mono (Finset.erase_subset_erase a hS)⟩
  | _ => exact h

mutual

/-- Only the cells of the set matter. -/
theorem Depicts.congr (v : Value) {w : Word} {S : Finset Address} (h : Depicts B σ v w S)
    (hσ : ∀ a ∈ S, σ'.cell? a = σ.cell? a) : Depicts B σ' v w S := by
  match v with
  | .array items =>
      obtain ⟨a, words, hw, ha, hcell, hitems⟩ := h
      refine ⟨a, words, hw, ha, (hσ a ha).trans hcell, DepictsItems.congr items hitems ?_⟩
      exact fun b hb => hσ b (Finset.mem_of_mem_erase hb)
  | .object fields =>
      obtain ⟨a, entries, hw, ha, hcell, hsorted, hfields⟩ := h
      refine ⟨a, entries, hw, ha, (hσ a ha).trans hcell, hsorted,
        DepictsFields.congr fields hfields ?_⟩
      exact fun b hb => hσ b (Finset.mem_of_mem_erase hb)
  | .null | .number _ | .string _ | .boolean _ | .nameRef _ | .function _ => exact h

theorem DepictsItems.congr (items : List Value) {words : List Word} {S : Finset Address}
    (h : DepictsItems B σ items words S) (hσ : ∀ a ∈ S, σ'.cell? a = σ.cell? a) :
    DepictsItems B σ' items words S := by
  match items with
  | [] => exact h
  | v :: rest =>
      obtain ⟨w, others, S₁, S₂, hwords, hparts, hsub, hv, hrest⟩ := h
      obtain ⟨h₁, h₂⟩ := Finset.union_subset_iff.mp hsub
      exact ⟨w, others, S₁, S₂, hwords, hparts, hsub, Depicts.congr v hv fun a ha => hσ a (h₁ ha),
        DepictsItems.congr rest hrest fun a ha => hσ a (h₂ ha)⟩

theorem DepictsFields.congr (fields : List (Text × Value)) {entries : List (Text × Word)}
    {S : Finset Address} (h : DepictsFields B σ fields entries S)
    (hσ : ∀ a ∈ S, σ'.cell? a = σ.cell? a) : DepictsFields B σ' fields entries S := by
  match fields with
  | [] => exact h
  | (key, v) :: rest =>
      obtain ⟨entry, others, S₁, S₂, hentries, hparts, hsub, ⟨hkey, hv⟩, hrest⟩ := h
      obtain ⟨h₁, h₂⟩ := Finset.union_subset_iff.mp hsub
      exact ⟨entry, others, S₁, S₂, hentries, hparts, hsub,
        ⟨hkey, Depicts.congr v hv fun a ha => hσ a (h₁ ha)⟩,
        DepictsFields.congr rest hrest fun a ha => hσ a (h₂ ha)⟩

end

/-! ## What a word is by itself -/

/-- The value with nothing in arrays and objects. -/
def Value.shell : Value → Value
  | .array _ => .array []
  | .object _ => .object []
  | v => v

@[simp] theorem Value.kind_shell (v : Value) : v.shell.kind = v.kind := by
  cases v <;> rfl

@[simp] theorem Value.asNumber_shell (v : Value) : v.shell.asNumber = v.asNumber := by
  cases v <;> rfl

@[simp] theorem Value.isTrue_shell (v : Value) : v.shell.isTrue = v.isTrue := by
  cases v <;> rfl

@[simp] theorem Value.position_shell (precision : Value.Precision) (v : Value) :
    v.shell.position precision = v.position precision := by
  cases v <;> rfl

theorem Depicts.shell_eq (h : Depicts B σ v w S) : w.shell = v.shell := by
  cases v with
  | array items =>
      obtain ⟨a, words, rfl, -⟩ := h
      rfl
  | object fields =>
      obtain ⟨a, entries, rfl, -⟩ := h
      rfl
  | function f =>
      obtain ⟨rfl, -⟩ := h
      rfl
  | _ =>
      rw [show w = _ from h]
      rfl

/-- The words and values that are the same by themselves, kind by kind. -/
inductive Word.Like : Word → Value → Prop
  | null : Like .null .null
  | number (x : Number) : Like (.number x) (.number x)
  | string (s : Text) : Like (.string s) (.string s)
  | boolean (b : Bool) : Like (.boolean b) (.boolean b)
  | array (a : Address) (items : List Value) : Like (.array a) (.array items)
  | nameRef (name : Text) : Like (.nameRef name) (.nameRef name)
  | function (f : Function) : Like (.function f) (.function f)
  | object (a : Address) (fields : Table Value) : Like (.object a) (.object fields)

theorem Word.like_of_shell {w : Word} {v : Value} (h : w.shell = v.shell) : w.Like v := by
  cases w <;> cases v <;> cases h
  · exact .null
  · exact .number _
  · exact .string _
  · exact .boolean _
  · exact .array _ _
  · exact .nameRef _
  · exact .function _
  · exact .object _ _

theorem Depicts.kind_eq (h : Depicts B σ v w S) : w.kind = v.kind := by
  rw [Word.kind, h.shell_eq, Value.kind_shell]

theorem Depicts.items_eq {a : Address} {items : List Value}
    (h : Depicts B σ (.array items) (.array a) S) :
    a ∈ S ∧ σ.cell? a = some (.items (σ.items a)) ∧
      Spread (Depicts B σ) items (σ.items a) (S.erase a) := by
  obtain ⟨_, words, ⟨⟩, ha, hcell, hitems⟩ := depicts_array.mp h
  have hwords : σ.items a = words := by rw [Memory.items, hcell]
  rw [hwords]
  exact ⟨ha, hcell, hitems⟩

theorem Depicts.fields_eq {a : Address} {fields : Table Value}
    (h : Depicts B σ (.object fields) (.object a) S) :
    a ∈ S ∧ σ.cell? a = some (.fields (σ.fields a)) ∧ Table.Sorted fields ∧
      Spread (DepictsEntry B σ) fields (σ.fields a) (S.erase a) := by
  obtain ⟨_, entries, ⟨⟩, ha, hcell, hsorted, hfields⟩ := depicts_object.mp h
  have hentries : σ.fields a = entries := by rw [Memory.fields, hcell]
  rw [hentries]
  exact ⟨ha, hcell, hsorted, hfields⟩

/-! ## Reading and comparing -/

theorem card_erase_lt {a : Address} (ha : a ∈ S) {n : Nat} (hn : S.card ≤ n) :
    ∃ k, n = k + 1 ∧ (S.erase a).card ≤ k := by
  have hcard := Finset.card_erase_add_one ha
  exact ⟨n - 1, by omega, by omega⟩

mutual

/-- Cells of different depths are different, so reading ends. -/
theorem Depicts.readWithin_eq (v : Value) {w : Word} {S : Finset Address} {n : Nat}
    (h : Depicts B σ v w S) (hn : S.card ≤ n) : σ.readWithin n w = some v := by
  match v with
  | .array items =>
      obtain ⟨a, words, rfl, ha, hcell, hitems⟩ := h
      obtain ⟨k, rfl, hk⟩ := card_erase_lt ha hn
      have hread := DepictsItems.mapM_eq items hitems hk
      simp [Memory.readWithin, Memory.items, hcell, hread]
  | .object fields =>
      obtain ⟨a, entries, rfl, ha, hcell, -, hfields⟩ := h
      obtain ⟨k, rfl, hk⟩ := card_erase_lt ha hn
      have hread := DepictsFields.mapM_eq fields hfields hk
      simp only [Memory.readWithin, Memory.fields, hcell, hread]
      rfl
  | .function f =>
      obtain ⟨rfl, -⟩ := h
      cases n <;> rfl
  | .null | .number _ | .string _ | .boolean _ | .nameRef _ =>
      rw [show w = _ from h]
      cases n <;> rfl

theorem DepictsItems.mapM_eq (items : List Value) {words : List Word} {S : Finset Address}
    {n : Nat} (h : DepictsItems B σ items words S) (hn : S.card ≤ n) :
    words.mapM (σ.readWithin n) = some items := by
  match items with
  | [] =>
      rw [show words = [] from h]
      rfl
  | v :: rest =>
      obtain ⟨w, others, S₁, S₂, rfl, -, hsub, hv, hrest⟩ := h
      obtain ⟨h₁, h₂⟩ := Finset.union_subset_iff.mp hsub
      have hfirst := Depicts.readWithin_eq v hv ((Finset.card_le_card h₁).trans hn)
      have hothers := DepictsItems.mapM_eq rest hrest ((Finset.card_le_card h₂).trans hn)
      simp [hfirst, hothers]

theorem DepictsFields.mapM_eq (fields : List (Text × Value)) {entries : List (Text × Word)}
    {S : Finset Address} {n : Nat} (h : DepictsFields B σ fields entries S) (hn : S.card ≤ n) :
    (entries.mapM fun entry => do return (entry.1, ← σ.readWithin n entry.2)) = some fields := by
  match fields with
  | [] =>
      rw [show entries = [] from h]
      rfl
  | (key, v) :: rest =>
      obtain ⟨entry, others, S₁, S₂, rfl, -, hsub, ⟨rfl, hv⟩, hrest⟩ := h
      obtain ⟨h₁, h₂⟩ := Finset.union_subset_iff.mp hsub
      have hfirst := Depicts.readWithin_eq v hv ((Finset.card_le_card h₁).trans hn)
      have hothers := DepictsFields.mapM_eq rest hrest ((Finset.card_le_card h₂).trans hn)
      rw [List.mapM_cons, hothers, hfirst]
      rfl

end

/-- A set of cells that are all there. -/
def Memory.Has (σ : Memory) (S : Finset Address) : Prop :=
  S ⊆ Finset.range σ.size

theorem Memory.Has.card_le (h : σ.Has S) : S.card ≤ σ.size := by
  have hcard := Finset.card_le_card h
  rwa [Finset.card_range] at hcard

theorem Depicts.read_eq (h : Depicts B σ v w S) (hS : σ.Has S) : σ.read w = some v :=
  Depicts.readWithin_eq v h hS.card_le

theorem Memory.equalWithin_of_kind (σ : Memory) (n : Nat) {w w' : Word}
    (h : w.kind = w'.kind → w.kind ≠ .array ∧ w.kind ≠ .object) :
    σ.equalWithin n w w' = some (w.shell.equal w'.shell) := by
  cases w with
  | array a =>
      cases w' with
      | array b => exact absurd rfl (h rfl).1
      | _ => cases n <;> rfl
  | object a =>
      cases w' with
      | object b => exact absurd rfl (h rfl).2
      | _ => cases n <;> rfl
  | _ => cases n <;> cases w' <;> rfl

theorem Value.equal_shell {v v' : Value}
    (h : v.kind = v'.kind → v.kind ≠ .array ∧ v.kind ≠ .object) :
    v.shell.equal v'.shell = v.equal v' := by
  cases v with
  | array items =>
      cases v' with
      | array items' => exact absurd rfl (h rfl).1
      | _ => rfl
  | object fields =>
      cases v' with
      | object fields' => exact absurd rfl (h rfl).2
      | _ => rfl
  | _ => cases v' <;> rfl

theorem Depicts.equalWithin_of_kind {v' : Value} {w' : Word} (n : Nat) (h : Depicts B σ v w S)
    (h' : Depicts B σ v' w' S') (hkind : v.kind = v'.kind → v.kind ≠ .array ∧ v.kind ≠ .object) :
    σ.equalWithin n w w' = some (v.equal v') := by
  have hwords : w.kind = w'.kind → w.kind ≠ .array ∧ w.kind ≠ .object := by
    rwa [h.kind_eq, h'.kind_eq]
  rw [σ.equalWithin_of_kind n hwords, h.shell_eq, h'.shell_eq, Value.equal_shell hkind]

mutual

/-- Values that share no cells are compared as they are. -/
theorem Depicts.equalWithin_eq (v : Value) {w w' : Word} {v' : Value} {S S' : Finset Address}
    {n : Nat} (h : Depicts B σ v w S) (h' : Depicts B σ v' w' S') (hparts : Disjoint S S')
    (hn : S.card ≤ n) : σ.equalWithin n w w' = some (v.equal v') := by
  match v, v' with
  | .array items, .array items' =>
      obtain ⟨a, words, rfl, ha, hcell, hitems⟩ := h
      obtain ⟨b, words', rfl, hb, hcell', hitems'⟩ := h'
      obtain ⟨k, rfl, hk⟩ := card_erase_lt ha hn
      have hne : a ≠ b := fun hab => Finset.disjoint_left.mp hparts ha (hab ▸ hb)
      simp only [Memory.equalWithin, if_neg hne, Memory.items, hcell, hcell', Value.equal]
      exact DepictsItems.equalAll_eq items hitems hitems'
        (hparts.mono (Finset.erase_subset a S) (Finset.erase_subset b S')) hk
  | .object fields, .object fields' =>
      obtain ⟨a, entries, rfl, ha, hcell, -, hfields⟩ := h
      obtain ⟨b, entries', rfl, hb, hcell', -, hfields'⟩ := h'
      obtain ⟨k, rfl, hk⟩ := card_erase_lt ha hn
      have hne : a ≠ b := fun hab => Finset.disjoint_left.mp hparts ha (hab ▸ hb)
      simp only [Memory.equalWithin, if_neg hne, Memory.fields, hcell, hcell', Value.equal]
      exact DepictsFields.equalAll_eq fields hfields hfields'
        (hparts.mono (Finset.erase_subset a S) (Finset.erase_subset b S')) hk
  | .array _, .null | .array _, .number _ | .array _, .string _ | .array _, .boolean _
  | .array _, .nameRef _ | .array _, .function _ | .array _, .object _
  | .object _, .null | .object _, .number _ | .object _, .string _ | .object _, .boolean _
  | .object _, .nameRef _ | .object _, .function _ | .object _, .array _ =>
      exact h.equalWithin_of_kind n h' (by simp [Value.kind])
  | .null, _ | .number _, _ | .string _, _ | .boolean _, _ | .nameRef _, _ | .function _, _ =>
      exact h.equalWithin_of_kind n h' (by simp [Value.kind])

theorem DepictsItems.equalAll_eq (items : List Value) {words words' : List Word}
    {items' : List Value} {S S' : Finset Address} {n : Nat} (h : DepictsItems B σ items words S)
    (h' : DepictsItems B σ items' words' S') (hparts : Disjoint S S') (hn : S.card ≤ n) :
    Memory.equalAll (σ.equalWithin n) words words' = some (Value.equalItems items items') := by
  match items, items' with
  | [], [] =>
      rw [show words = [] from h, show words' = [] from h']
      rfl
  | [], v' :: rest' =>
      obtain ⟨w', others', -, -, rfl, -⟩ := h'
      rw [show words = [] from h]
      rfl
  | v :: rest, [] =>
      obtain ⟨w, others, -, -, rfl, -⟩ := h
      rw [show words' = [] from h']
      rfl
  | v :: rest, v' :: rest' =>
      obtain ⟨w, others, S₁, S₂, rfl, -, hsub, hv, hrest⟩ := h
      obtain ⟨w', others', T₁, T₂, rfl, -, hsub', hv', hrest'⟩ := h'
      obtain ⟨h₁, h₂⟩ := Finset.union_subset_iff.mp hsub
      obtain ⟨h₁', h₂'⟩ := Finset.union_subset_iff.mp hsub'
      have hfirst := Depicts.equalWithin_eq v hv hv' (hparts.mono h₁ h₁')
        ((Finset.card_le_card h₁).trans hn)
      have hothers := DepictsItems.equalAll_eq rest hrest hrest' (hparts.mono h₂ h₂')
        ((Finset.card_le_card h₂).trans hn)
      simp only [Memory.equalAll, hfirst, hothers, Value.equalItems]
      cases v.equal v' <;> rfl

theorem DepictsFields.equalAll_eq (fields : List (Text × Value))
    {entries entries' : List (Text × Word)} {fields' : List (Text × Value)}
    {S S' : Finset Address} {n : Nat} (h : DepictsFields B σ fields entries S)
    (h' : DepictsFields B σ fields' entries' S') (hparts : Disjoint S S') (hn : S.card ≤ n) :
    Memory.equalAll (fun x y => if x.1 = y.1 then σ.equalWithin n x.2 y.2 else some false) entries
      entries' = some (Value.equalFields fields fields') := by
  match fields, fields' with
  | [], [] =>
      rw [show entries = [] from h, show entries' = [] from h']
      rfl
  | [], (key', v') :: rest' =>
      obtain ⟨entry', others', -, -, rfl, -⟩ := h'
      rw [show entries = [] from h]
      rfl
  | (key, v) :: rest, [] =>
      obtain ⟨entry, others, -, -, rfl, -⟩ := h
      rw [show entries' = [] from h']
      rfl
  | (key, v) :: rest, (key', v') :: rest' =>
      obtain ⟨entry, others, S₁, S₂, rfl, -, hsub, ⟨rfl, hv⟩, hrest⟩ := h
      obtain ⟨entry', others', T₁, T₂, rfl, -, hsub', ⟨rfl, hv'⟩, hrest'⟩ := h'
      obtain ⟨h₁, h₂⟩ := Finset.union_subset_iff.mp hsub
      obtain ⟨h₁', h₂'⟩ := Finset.union_subset_iff.mp hsub'
      have hfirst := Depicts.equalWithin_eq v hv hv' (hparts.mono h₁ h₁')
        ((Finset.card_le_card h₁).trans hn)
      have hothers := DepictsFields.equalAll_eq rest hrest hrest' (hparts.mono h₂ h₂')
        ((Finset.card_le_card h₂).trans hn)
      simp only [Memory.equalAll, hfirst, hothers, Value.equalFields]
      by_cases hkey : entry.1 = entry'.1
      · simp only [hkey, if_pos, beq_self_eq_true, Bool.true_and]
        cases v.equal v' <;> rfl
      · simp [hkey]

end

theorem Depicts.equal?_eq {v' : Value} {w' : Word} (h : Depicts B σ v w S)
    (h' : Depicts B σ v' w' S') (hparts : Disjoint S S') (hS : σ.Has S) :
    σ.equal? w w' = some (v.equal v') :=
  Depicts.equalWithin_eq v h h' hparts hS.card_le

/-! ## Items and entries -/

theorem Spread.item {items : List Value} {words : List Word}
    (h : Spread (Depicts B σ) items words S) {i : Nat} {v : Value} (hget : items[i]? = some v) :
    ∃ w S₁ S₂, words[i]? = some w ∧ Disjoint S₁ S₂ ∧ S₁ ∪ S₂ ⊆ S ∧ Depicts B σ v w S₁ ∧
      ∀ {σ' : Memory} {v' : Value} {w' : Word} {S' : Finset Address},
        (∀ a ∈ S₂, σ'.cell? a = σ.cell? a) → Depicts B σ' v' w' S' → Disjoint S' S₂ →
          Spread (Depicts B σ') (items.set i v') (words.set i w') (S' ∪ S₂) := by
  obtain ⟨hi, rfl⟩ := List.getElem?_eq_some_iff.mp hget
  have hitems : items.take i ++ items[i] :: items.drop (i + 1) = items := by simp
  obtain ⟨ys₁, w, ys₂, S₁, S₂, rfl, hparts, hsub, ⟨T, hleft⟩, hv, hset⟩ := (hitems ▸ h).focus
  have hlength : ys₁.length = i := by
    rw [hleft.length_eq, List.length_take, Nat.min_eq_left hi.le]
  refine ⟨w, S₁, S₂, by simp [hlength], hparts, hsub, hv, fun hσ hv' hdisjoint => ?_⟩
  have hnew := hset (fun x y T hT hx => Depicts.congr x hx fun a ha => hσ a (hT ha)) hv' hdisjoint
  rw [List.set_eq_take_append_cons_drop, if_pos hi]
  simpa [← hlength] using hnew

theorem Spread.item_none {items : List Value} {words : List Word}
    (h : Spread (Depicts B σ) items words S) {i : Nat} (hget : items[i]? = none) :
    words[i]? = none := by
  rw [List.getElem?_eq_none_iff] at hget ⊢
  rwa [h.length_eq]

section

variable {t : Table Value} {e : Table Word} (h : Spread (DepictsEntry B σ) t e S)
include h

theorem Spread.get?_none {name : Text} (hname : ∀ entry ∈ t, entry.1 ≠ name) :
    Table.get? e name = none := by
  induction t generalizing e S with
  | nil =>
      rw [show e = [] from h]
      rfl
  | cons entry rest ih =>
      obtain ⟨⟨key, w⟩, others, S₁, S₂, rfl, -, -, ⟨rfl, -⟩, hrest⟩ := h
      obtain ⟨hfirst, hothers⟩ := List.forall_mem_cons.mp hname
      rw [Table.get?, if_neg hfirst]
      exact ih hrest hothers

theorem Spread.entry (name : Text) :
    (Table.get? t name = none ∧ Table.get? e name = none) ∨
      ∃ v w, Table.get? t name = some v ∧ Table.get? e name = some w ∧ Depicts B σ v w S := by
  induction t generalizing e S with
  | nil =>
      rw [show e = [] from h]
      exact .inl ⟨rfl, rfl⟩
  | cons entry rest ih =>
      obtain ⟨⟨key, w⟩, others, S₁, S₂, rfl, -, hsub, ⟨rfl, hv⟩, hrest⟩ := h
      obtain ⟨h₁, h₂⟩ := Finset.union_subset_iff.mp hsub
      by_cases hname : entry.1 = name
      · exact .inr ⟨entry.2, w, by simp [Table.get?, hname], by simp [Table.get?, hname],
          hv.mono h₁⟩
      · simp only [Table.get?, if_neg hname]
        refine (ih hrest).imp id ?_
        rintro ⟨v, w, hget, hget', hv⟩
        exact ⟨v, w, hget, hget', hv.mono h₂⟩

theorem Spread.insert {S' : Finset Address} {v : Value} {w : Word} (name : Text)
    (hv : Depicts B σ v w S') (hparts : Disjoint S S') :
    Spread (DepictsEntry B σ) (Table.insert name v t) (Table.insert name w e) (S ∪ S') := by
  induction t generalizing e S with
  | nil =>
      rw [show e = [] from h]
      exact ⟨(name, w), [], S', ∅, rfl, by simp, by simp, ⟨rfl, hv⟩, rfl⟩
  | cons entry rest ih =>
      have hwhole := h
      obtain ⟨⟨key, old⟩, others, S₁, S₂, rfl, hown, hsub, ⟨rfl, hentry⟩, hrest⟩ := h
      obtain ⟨h₁, h₂⟩ := Finset.union_subset_iff.mp hsub
      simp only [Table.insert]
      cases Text.compare name entry.1 with
      | lt => exact ⟨(name, w), _, S', S, rfl, hparts.symm, by simp [Finset.union_comm], ⟨rfl, hv⟩,
          hwhole⟩
      | eq =>
          refine ⟨(name, w), _, S', S₂, rfl, (hparts.mono_left h₂).symm, ?_, ⟨rfl, hv⟩, hrest⟩
          rw [Finset.union_comm]
          exact Finset.union_subset_union h₂ Finset.Subset.rfl
      | gt =>
          refine ⟨_, _, S₁, S₂ ∪ S', rfl, ?_, ?_, ⟨rfl, hentry⟩, ih hrest (hparts.mono_left h₂)⟩
          · exact Finset.disjoint_union_right.mpr ⟨hown, hparts.mono_left h₁⟩
          · rw [← Finset.union_assoc]
            exact Finset.union_subset_union hsub Finset.Subset.rfl

/-- An entry can change where it is. The table of words then stays as it is. -/
theorem Spread.entry_in_place (hsorted : Table.Sorted t) {name : Text} {v : Value}
    (hget : Table.get? t name = some v) :
    ∃ w S₁ S₂, Table.get? e name = some w ∧ Disjoint S₁ S₂ ∧ S₁ ∪ S₂ ⊆ S ∧ Depicts B σ v w S₁ ∧
      ∀ {σ' : Memory} {v' : Value} {S' : Finset Address},
        (∀ a ∈ S₂, σ'.cell? a = σ.cell? a) → Depicts B σ' v' w S' → Disjoint S' S₂ →
          Spread (DepictsEntry B σ') (Table.insert name v' t) e (S' ∪ S₂) := by
  obtain ⟨before, after, rfl, hbefore, hinsert⟩ := hsorted.insert_eq hget
  obtain ⟨ys₁, ⟨key, w⟩, ys₂, S₁, S₂, rfl, hparts, hsub, ⟨T, hleft⟩, ⟨rfl, hv⟩, hset⟩ := h.focus
  refine ⟨w, S₁, S₂, ?_, hparts, hsub, hv, fun hσ hv' hdisjoint => ?_⟩
  · rw [Table.get?_append, hleft.get?_none hbefore]
    simp [Table.get?]
  · rw [hinsert]
    exact hset
      (fun x y T hT hx => ⟨hx.1, Depicts.congr x.2 hx.2 fun a ha => hσ a (hT ha)⟩)
      ⟨rfl, hv'⟩ hdisjoint

end

end

end Script
