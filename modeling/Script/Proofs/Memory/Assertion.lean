import Script.Proofs.Memory.Depiction
import Script.Proofs.Values
import Mathlib.Algebra.Group.Defs
import Mathlib.Data.List.Forall2

/-!
# Assertions about the memory

An assertion has cells of its own. Two assertions side by side have different cells, so what is done
to the cells of one does not touch the other. The cells of the functions and classes in the heap
belong to nobody: they are never changed, and everybody may look at them.
-/

namespace Script

/-! ## Cells after a change -/

namespace Memory

variable (σ : Memory)

theorem cell?_alloc (cell : Cell) {a : Address} (ha : a < σ.size) :
    (σ.alloc cell).cell? a = σ.cell? a :=
  Array.getElem?_push_lt ha |>.trans (Array.getElem?_eq_getElem ha).symm

theorem cell?_alloc_self (cell : Cell) : (σ.alloc cell).cell? σ.size = some cell :=
  Array.getElem?_push_size

@[simp] theorem size_alloc (cell : Cell) : (σ.alloc cell).size = σ.size + 1 :=
  Array.size_push cell

theorem cell?_modify (f : Cell → Cell) {a b : Address} (h : b ≠ a) :
    (σ.modify a f).cell? b = σ.cell? b := by
  simp [cell?, modify, Array.getElem?_modify, h.symm]

theorem cell?_modify_self (f : Cell → Cell) (a : Address) :
    (σ.modify a f).cell? a = (σ.cell? a).map f := by
  simp [cell?, modify, Array.getElem?_modify]

@[simp] theorem size_modify (f : Cell → Cell) (a : Address) : (σ.modify a f).size = σ.size :=
  Array.size_modify

end Memory

/-! ## Charters -/

/-- What a run may execute, and what it may declare. -/
structure Charter where
  Body : Stmt → Prop
  Entry : Text → Value → Prop
  inside {d s : Stmt} {block : List Stmt} : Body d → block ∈ d.blocks → s ∈ block → Body s
  declares {d : Stmt} {name : Text} {v : Value} : Body d → d.Declares name v → Entry name v

/-- The charter that allows everything. -/
def Charter.free : Charter where
  Body _ := True
  Entry _ _ := True
  inside _ _ _ := trivial
  declares _ _ := trivial

/-- What a charter asks of a value by itself: functions have only statements that may be executed,
and the properties of objects are in order. -/
def Charter.Allows (K : Charter) : Value → Prop
  | .function f => ∀ s ∈ f.stmts, K.Body s
  | .object fields => Table.Sorted fields
  | _ => True

section

variable {K : Charter} {σ : Memory}

mutual

theorem Depicts.allows (v : Value) {w : Word} {S : Finset Address} (h : Depicts K.Body σ v w S) :
    v.Throughout K.Allows := by
  match v with
  | .array items =>
      obtain ⟨a, words, -, -, -, hitems⟩ := h
      exact Value.throughout_array.mpr ⟨trivial, DepictsItems.allows items hitems⟩
  | .object fields =>
      obtain ⟨a, entries, -, -, -, hsorted, hfields⟩ := h
      exact Value.throughout_object.mpr ⟨hsorted, DepictsFields.allows fields hfields⟩
  | .function f => exact (Value.throughout_of_parts rfl).mpr h.2
  | .null | .number _ | .string _ | .boolean _ | .nameRef _ =>
      exact (Value.throughout_of_parts rfl).mpr trivial

theorem DepictsItems.allows (items : List Value) {words : List Word} {S : Finset Address}
    (h : DepictsItems K.Body σ items words S) : ∀ v ∈ items, v.Throughout K.Allows := by
  match items with
  | [] => simp
  | v :: rest =>
      obtain ⟨w, others, S₁, S₂, -, -, -, hv, hrest⟩ := h
      exact List.forall_mem_cons.mpr ⟨Depicts.allows v hv, DepictsItems.allows rest hrest⟩

theorem DepictsFields.allows (fields : List (Text × Value)) {entries : List (Text × Word)}
    {S : Finset Address} (h : DepictsFields K.Body σ fields entries S) :
    Table.Each (Value.Throughout K.Allows) fields := by
  match fields with
  | [] => exact Table.Each.nil _
  | (key, v) :: rest =>
      obtain ⟨entry, others, S₁, S₂, -, -, -, ⟨-, hv⟩, hrest⟩ := h
      exact List.forall_mem_cons.mpr ⟨Depicts.allows v hv, DepictsFields.allows rest hrest⟩

end

end

/-! ## Assertions -/

/-- What holds of a memory by the cells of a zone, which are never changed, and by cells of its own.
It holds as long as these cells stay the same. -/
@[ext] structure Assertion where
  Holds : Memory → Finset Address → Finset Address → Prop
  mono {σ : Memory} {Z S S' : Finset Address} : Holds σ Z S → S ⊆ S' → Holds σ Z S'
  stable {σ σ' : Memory} {Z Z' S : Finset Address} : Holds σ Z S →
    (∀ a, a ∈ Z ∨ a ∈ S → σ'.cell? a = σ.cell? a) → Z ⊆ Z' → Holds σ' Z' S

namespace Assertion

/-- A fact that has nothing to do with the memory. -/
def fact (p : Prop) : Assertion where
  Holds _ _ _ := p
  mono h _ := h
  stable h _ _ := h

/-- Results that are the same on both sides. -/
def same {α : Type} (a b : α) : Assertion :=
  fact (a = b)

/-- Two assertions with different cells. -/
def sep (P Q : Assertion) : Assertion where
  Holds σ Z S := ∃ S₁ S₂, Disjoint S₁ S₂ ∧ S₁ ∪ S₂ ⊆ S ∧ P.Holds σ Z S₁ ∧ Q.Holds σ Z S₂
  mono := by
    rintro σ Z S S' ⟨S₁, S₂, hparts, hsub, hP, hQ⟩ hS
    exact ⟨S₁, S₂, hparts, hsub.trans hS, hP, hQ⟩
  stable := by
    rintro σ σ' Z Z' S ⟨S₁, S₂, hparts, hsub, hP, hQ⟩ hσ hZ
    obtain ⟨h₁, h₂⟩ := Finset.union_subset_iff.mp hsub
    exact ⟨S₁, S₂, hparts, hsub, P.stable hP (fun a ha => hσ a (ha.imp_right (h₁ ·))) hZ,
      Q.stable hQ (fun a ha => hσ a (ha.imp_right (h₂ ·))) hZ⟩

instance : Mul Assertion := ⟨sep⟩

instance : One Assertion := ⟨fact True⟩

variable {P Q R : Assertion} {σ : Memory} {Z S : Finset Address}

theorem holds_comm (h : (P * Q).Holds σ Z S) : (Q * P).Holds σ Z S := by
  obtain ⟨S₁, S₂, hparts, hsub, hP, hQ⟩ := h
  exact ⟨S₂, S₁, hparts.symm, (Finset.union_comm S₁ S₂) ▸ hsub, hQ, hP⟩

theorem holds_assoc (h : (P * Q * R).Holds σ Z S) : (P * (Q * R)).Holds σ Z S := by
  obtain ⟨T, S₃, hparts, hsub, ⟨S₁, S₂, hparts', hsub', hP, hQ⟩, hR⟩ := h
  obtain ⟨h₁, h₂⟩ := Finset.union_subset_iff.mp hsub'
  obtain ⟨hT, h₃⟩ := Finset.union_subset_iff.mp hsub
  refine ⟨S₁, S₂ ∪ S₃, ?_, ?_, hP, S₂, S₃, hparts.mono_left h₂, Finset.Subset.rfl, hQ, hR⟩
  · exact Finset.disjoint_union_right.mpr ⟨hparts', hparts.mono_left h₁⟩
  · exact Finset.union_subset (h₁.trans hT) (Finset.union_subset (h₂.trans hT) h₃)

theorem fact_mul {p : Prop} : (fact p * P).Holds σ Z S ↔ p ∧ P.Holds σ Z S := by
  constructor
  · rintro ⟨S₁, S₂, -, hsub, hp, hP⟩
    exact ⟨hp, P.mono hP (Finset.union_subset_iff.mp hsub).2⟩
  · rintro ⟨hp, hP⟩
    exact ⟨∅, S, Finset.disjoint_empty_left S, by simp, hp, hP⟩

theorem ext_holds (h : ∀ σ Z S, P.Holds σ Z S ↔ Q.Holds σ Z S) : P = Q := by
  ext σ Z S
  exact h σ Z S

instance : CommMonoid Assertion where
  mul_assoc P Q R := ext_holds fun _ _ _ => by
    refine ⟨holds_assoc, fun h => ?_⟩
    exact holds_comm (holds_assoc (holds_comm (holds_assoc (holds_comm h))))
  mul_comm P Q := ext_holds fun _ _ _ => ⟨holds_comm, holds_comm⟩
  one_mul P := ext_holds fun _ _ _ => fact_mul.trans (and_iff_right trivial)
  mul_one P := ext_holds fun _ _ _ =>
    ⟨fun h => (fact_mul.mp (holds_comm h)).2, fun h => holds_comm (fact_mul.mpr ⟨trivial, h⟩)⟩

/-- What holds by one assertion holds by the other. -/
def Entails (P Q : Assertion) : Prop :=
  ∀ σ Z S, P.Holds σ Z S → Q.Holds σ Z S

theorem Entails.refl (P : Assertion) : P.Entails P :=
  fun _ _ _ h => h

theorem Entails.trans (hPQ : P.Entails Q) (hQR : Q.Entails R) : P.Entails R :=
  fun σ Z S h => hQR σ Z S (hPQ σ Z S h)

theorem Entails.mul {P' Q' : Assertion} (hP : P.Entails P') (hQ : Q.Entails Q') :
    (P * Q).Entails (P' * Q') := by
  rintro σ Z S ⟨S₁, S₂, hparts, hsub, h₁, h₂⟩
  exact ⟨S₁, S₂, hparts, hsub, hP σ Z S₁ h₁, hQ σ Z S₂ h₂⟩

/-- Cells can be given up. -/
theorem entails_one (P : Assertion) : P.Entails 1 :=
  fun _ _ _ _ => trivial

theorem mul_entails_left : (P * Q).Entails P := by
  simpa using (Entails.refl P).mul (entails_one Q)

theorem mul_entails_right : (P * Q).Entails Q := by
  simpa using (entails_one P).mul (Entails.refl Q)

section

variable (K : Charter)

/-- A word with the cells of the value that it stands for. -/
def word (v : Value) (w : Word) : Assertion where
  Holds σ _ S := Depicts K.Body σ v w S
  mono := Depicts.mono
  stable h hσ _ := Depicts.congr v h fun a ha => hσ a (.inr ha)

def words (values : List Value) (words : List Word) : Assertion where
  Holds σ _ S := Spread (Depicts K.Body σ) values words S
  mono := Spread.mono
  stable h hσ _ := h.imp fun v _ _ _ hT hv =>
    Depicts.congr v hv fun a ha => hσ a (.inr (hT ha))

def table (values : Table Value) (words : Table Word) : Assertion where
  Holds σ _ S := Table.Sorted values ∧ Spread (DepictsEntry K.Body σ) values words S
  mono h hS := ⟨h.1, h.2.mono hS⟩
  stable h hσ _ := ⟨h.1, h.2.imp fun v _ _ _ hT hv =>
    ⟨hv.1, Depicts.congr v.2 hv.2 fun a ha => hσ a (.inr (hT ha))⟩⟩

/-- A word that stands for a value by cells that are never changed. -/
def frozen (v : Value) (w : Word) : Assertion where
  Holds σ Z _ := Depicts K.Body σ v w Z
  mono h _ := h
  stable h hσ hZ := (Depicts.congr _ h fun a ha => hσ a (.inl ha)).mono hZ

end

variable {K : Charter} {v : Value} {w : Word}

theorem words_nil : (1 : Assertion).Entails (words K [] []) :=
  fun _ _ _ _ => rfl

theorem words_cons {values : List Value} {ws : List Word} :
    (word K v w * words K values ws).Entails (words K (v :: values) (w :: ws)) := by
  rintro σ Z S ⟨S₁, S₂, hparts, hsub, hv, hrest⟩
  exact ⟨w, ws, S₁, S₂, rfl, hparts, hsub, hv, hrest⟩

theorem words_singleton : (word K v w).Entails (words K [v] [w]) := by
  simpa using ((Entails.refl (word K v w)).mul words_nil).trans words_cons

theorem table_nil : (1 : Assertion).Entails (table K [] []) :=
  fun _ _ _ _ => ⟨.nil, rfl⟩

theorem table_insert {t : Table Value} {e : Table Word} (name : Text) :
    (table K t e * word K v w).Entails
      (table K (Table.insert name v t) (Table.insert name w e)) := by
  rintro σ Z S ⟨S₁, S₂, hparts, hsub, ⟨hsorted, ht⟩, hv⟩
  exact ⟨hsorted.insert name v, (ht.insert name hv hparts).mono hsub⟩

end Assertion

/-! ## The heap and the rest -/

/-- The words of a heap stand for its entries by cells that are never changed. -/
def Stored (K : Charter) (σ : Memory) (Z : Finset Address) : Heap → Table Word → Prop :=
  List.Forall₂ fun x y => y.1 = x.1 ∧ Depicts K.Body σ x.2 y.2 Z ∧ K.Entry x.1 x.2

section

variable {K : Charter} {σ σ' : Memory} {Z Z' : Finset Address} {heap : Heap} {entries : Table Word}

theorem Stored.stable (h : Stored K σ Z heap entries) (hσ : ∀ a ∈ Z, σ'.cell? a = σ.cell? a)
    (hZ : Z ⊆ Z') : Stored K σ' Z' heap entries :=
  List.Forall₂.imp (fun x _ hx => ⟨hx.1, (Depicts.congr x.2 hx.2.1 hσ).mono hZ, hx.2.2⟩) h

theorem Stored.insert (h : Stored K σ Z heap entries) {name : Text} {v : Value} {w : Word}
    (hv : Depicts K.Body σ v w Z) (hentry : K.Entry name v) :
    Stored K σ Z (Table.insert name v heap) (Table.insert name w entries) := by
  induction h with
  | nil => exact .cons ⟨rfl, hv, hentry⟩ .nil
  | @cons x y heap entries hx hrest ih =>
      obtain ⟨_, old⟩ := x
      obtain ⟨key, w'⟩ := y
      obtain ⟨rfl, hx⟩ := hx
      simp only [Table.insert]
      cases Text.compare name key with
      | lt => exact .cons ⟨rfl, hv, hentry⟩ (.cons ⟨rfl, hx⟩ hrest)
      | eq => exact .cons ⟨rfl, hv, hentry⟩ hrest
      | gt => exact .cons ⟨rfl, hx⟩ ih

theorem Stored.entry (h : Stored K σ Z heap entries) (name : Text) :
    (Table.get? heap name = none ∧ Table.get? entries name = none) ∨
      ∃ v w, Table.get? heap name = some v ∧ Table.get? entries name = some w ∧
        Depicts K.Body σ v w Z ∧ K.Entry name v := by
  induction h with
  | nil => exact .inl ⟨rfl, rfl⟩
  | @cons x y heap entries hx _ ih =>
      obtain ⟨_, v⟩ := x
      obtain ⟨key, w⟩ := y
      obtain ⟨rfl, hv, hentry⟩ := hx
      by_cases hname : key = name
      · subst hname
        exact .inr ⟨v, w, by simp [Table.get?], by simp [Table.get?], hv, hentry⟩
      · simpa only [Table.get?, if_neg hname] using ih

end

/-- A memory holds the entries of a heap and, apart from them, what an assertion says. -/
def Provides (K : Charter) (σ : Memory) (heap : Heap) (entries : Table Word) (R : Assertion) :
    Prop :=
  ∃ Z S, σ.Has Z ∧ σ.Has S ∧ Disjoint Z S ∧ Stored K σ Z heap entries ∧ R.Holds σ Z S

namespace Provides

open Assertion

variable {K : Charter} {σ σ' : Memory} {heap : Heap} {entries : Table Word}
  {P P' R R' : Assertion}

theorem imp (h : Provides K σ heap entries R) (hR : R.Entails R') :
    Provides K σ heap entries R' := by
  obtain ⟨Z, S, hZ, hS, hparts, hheap, hholds⟩ := h
  exact ⟨Z, S, hZ, hS, hparts, hheap, hR σ Z S hholds⟩

/-- Where only the cells of one assertion change and new ones come to it, all else stays. -/
theorem update (h : Provides K σ heap entries (P * R)) (hsize : σ.size ≤ σ'.size)
    (hP : ∀ Z S, σ.Has Z → σ.Has S → P.Holds σ Z S →
      (∀ a < σ.size, a ∉ S → σ'.cell? a = σ.cell? a) ∧
        ∃ S', σ'.Has S' ∧ (∀ a ∈ S', a ∈ S ∨ σ.size ≤ a) ∧ P'.Holds σ' Z S') :
    Provides K σ' heap entries (P' * R) := by
  obtain ⟨Z, S, hZ, hS, hparts, hheap, S₁, S₂, hown, hsub, hP₁, hR⟩ := h
  obtain ⟨h₁, h₂⟩ := Finset.union_subset_iff.mp hsub
  obtain ⟨hsame, S', hS', hnew, hP'⟩ := hP Z S₁ hZ (h₁.trans hS) hP₁
  have hlt {T : Finset Address} (hT : σ.Has T) {a : Address} (ha : a ∈ T) : a < σ.size :=
    Finset.mem_range.mp (hT ha)
  have hgrow {T : Finset Address} (hT : σ.Has T) : σ'.Has T :=
    fun a ha => Finset.mem_range.mpr ((hlt hT ha).trans_le hsize)
  have hapart {T : Finset Address} (hT : σ.Has T) (hd : Disjoint T S₁) : Disjoint T S' := by
    refine Finset.disjoint_left.mpr fun a ha ha' => ?_
    rcases hnew a ha' with hold | hfresh
    · exact Finset.disjoint_left.mp hd ha hold
    · exact absurd (hlt hT ha) (Nat.not_lt.mpr hfresh)
  have hkeep {T : Finset Address} (hT : σ.Has T) (hd : Disjoint T S₁) :
      ∀ a ∈ T, σ'.cell? a = σ.cell? a :=
    fun a ha => hsame a (hlt hT ha) (Finset.disjoint_left.mp hd ha)
  have hZ₁ : Disjoint Z S₁ := hparts.mono_right h₁
  have hS₂ : σ.Has S₂ := h₂.trans hS
  refine ⟨Z, S' ∪ S₂, hgrow hZ, Finset.union_subset hS' (hgrow hS₂), ?_,
    hheap.stable (hkeep hZ hZ₁) Finset.Subset.rfl, S', S₂, (hapart hS₂ hown.symm).symm,
    Finset.Subset.rfl, hP', ?_⟩
  · exact Finset.disjoint_union_right.mpr ⟨hapart hZ hZ₁, hparts.mono_right h₂⟩
  · refine R.stable hR (fun a ha => ?_) Finset.Subset.rfl
    exact ha.elim (hkeep hZ hZ₁ a) (hkeep hS₂ hown.symm a)

/-- A value becomes an entry of the heap, together with its cells. -/
theorem declare {v : Value} {w : Word} (h : Provides K σ heap entries (word K v w * R))
    {name : Text} (hentry : K.Entry name v) :
    Provides K σ (Table.insert name v heap) (Table.insert name w entries) R := by
  obtain ⟨Z, S, hZ, hS, hparts, hheap, S₁, S₂, hown, hsub, hv, hR⟩ := h
  obtain ⟨h₁, h₂⟩ := Finset.union_subset_iff.mp hsub
  have hzone : Z ⊆ Z ∪ S₁ := Finset.subset_union_left
  refine ⟨Z ∪ S₁, S₂, Finset.union_subset hZ (h₁.trans hS), h₂.trans hS, ?_, ?_,
    R.stable hR (fun _ _ => rfl) hzone⟩
  · exact Finset.disjoint_union_left.mpr ⟨hparts.mono_right h₂, hown⟩
  · exact (hheap.stable (fun _ _ => rfl) hzone).insert (hv.mono Finset.subset_union_right) hentry

/-- Looking at an entry of the heap. -/
theorem entry (h : Provides K σ heap entries R) (name : Text) :
    (Table.get? heap name = none ∧ Table.get? entries name = none) ∨
      ∃ v w, Table.get? heap name = some v ∧ Table.get? entries name = some w ∧ K.Entry name v ∧
        Provides K σ heap entries (frozen K v w * R) := by
  obtain ⟨Z, S, hZ, hS, hparts, hheap, hR⟩ := h
  refine (hheap.entry name).imp id ?_
  rintro ⟨v, w, hget, hget', hv, hentry⟩
  exact ⟨v, w, hget, hget', hentry, Z, S, hZ, hS, hparts, hheap, ∅, S,
    Finset.disjoint_empty_left S, by simp, hv, hR⟩

end Provides

end Script
