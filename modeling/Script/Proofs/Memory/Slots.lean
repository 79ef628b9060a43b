import Script.Engine.Expr
import Script.Proofs.Memory.Effects

/-!
# Parts of arrays and objects in the memory

The steps of a path lead through cells that belong to the variable they start from. A word that is
put into the last slot changes what the variable stands for in this one place.
-/

namespace Script

open Assertion

section

variable {B : Stmt → Prop} {σ : Memory} {S : Finset Address} {t : Table Value} {e : Table Word}
  (h : Spread (DepictsEntry B σ) t e S)
include h

theorem Spread.className_eq : Word.className e = className t := by
  unfold Word.className className
  rcases h.entry nameKey with ⟨hget, hget'⟩ | ⟨v, w, hget, hget', hv⟩
  · rw [hget, hget']
  · rw [hget, hget']
    cases Word.like_of_shell hv.shell_eq with
    | _ => rfl

theorem Spread.contains_eq (name : Text) : Table.contains e name = Table.contains t name := by
  unfold Table.contains
  rcases h.entry name with ⟨hget, hget'⟩ | ⟨v, w, hget, hget', -⟩ <;> rw [hget, hget'] <;> rfl

end

/-! ## Reading -/

section

variable {K : Charter} {L : Nat} {c : Runtime} {m : Machine} {R : Assertion} {v i : Value}
  {w u : Word}

theorem State.property (h : State K L c m R) (hw : c.Shows K v w) (key : Text) (token : Token) :
    Agrees K L (fun w v => word K v w) R c (Exec.property w key token c)
      ((Evaluation.ofExcept token.location (v.getProperty key) : Eval Value) m) := by
  obtain ⟨T, hT, hv⟩ := hw
  cases Word.like_of_shell hv.shell_eq with
  | object a fields =>
      obtain ⟨-, -, -, hfields⟩ := hv.fields_eq
      simp only [Exec.property, Exec.fields, Exec.ask, Bind.bind, Exec.bind, Value.getProperty]
      rcases hfields.entry key with ⟨hget, hget'⟩ | ⟨part, w', hget, hget', hpart⟩
      · rw [hget, hget', hfields.className_eq]
        exact .fault h (.refl K L c)
      · rw [hget, hget']
        have hshows : c.Shows K part w' := ⟨_, (Finset.erase_subset a T).trans hT, hpart⟩
        obtain ⟨w'', c', hrun, hs, hu⟩ := h.copy hshows
        simp only [hrun]
        exact .done hs hu
  | _ => exact .fault h (.refl K L c)

theorem State.item (h : State K L c m R) (hw : c.Shows K v w) (hi : u.shell = i.shell)
    (token : Token) :
    Agrees K L (fun w v => word K v w) R c (Exec.item w u token c)
      ((Evaluation.ofExcept token.location (v.getItem i) : Eval Value) m) := by
  obtain ⟨T, hT, hv⟩ := hw
  cases Word.like_of_shell hv.shell_eq with
  | array a items =>
      obtain ⟨-, -, hitems⟩ := hv.items_eq
      simp only [Exec.item, hi, Value.position_shell, Value.getItem, Value.item]
      cases i.position .truncated with
      | error cause => exact .fault h (.refl K L c)
      | ok n =>
          simp only [Exec.items, Exec.ask, Bind.bind, Exec.bind, Except.bind]
          cases hget : items[n]? with
          | none =>
              rw [hitems.item_none hget, hitems.length_eq]
              exact .fault h (.refl K L c)
          | some part =>
              obtain ⟨w', S₁, S₂, hget', -, hsub, hpart, -⟩ := hitems.item hget
              rw [hget']
              have hS₁ := (Finset.union_subset_iff.mp hsub).1
              have hshows : c.Shows K part w' :=
                ⟨S₁, (hS₁.trans (Finset.erase_subset a T)).trans hT, hpart⟩
              obtain ⟨w'', c', hrun, hs, hu⟩ := h.copy hshows
              simp only [hrun]
              exact .done hs hu
  | _ => exact .fault h (.refl K L c)

theorem Follows.property (key : Text) (token : Token) :
    Follows K L (word K v w) (Exec.property w key token)
      (Evaluation.ofExcept token.location (v.getProperty key) : Eval Value)
      (fun w v => word K v w) :=
  fun _ _ _ hs => (hs.property hs.shows_word key token).imp
    (fun _ _ => (Entails.refl _).mul mul_entails_right) mul_entails_right

theorem Follows.item (token : Token) :
    Follows K L (word K v w * word K i u) (Exec.item w u token)
      (Evaluation.ofExcept token.location (v.getItem i) : Eval Value) (fun w v => word K v w) := by
  intro c m R hs
  rw [mul_assoc] at hs
  have hi : u.shell = i.shell :=
    State.learn (hs.imp mul_entails_right) fun _ _ _ hu => Depicts.shell_eq hu
  refine (hs.item hs.shows_word hi token).imp (fun _ _ => (Entails.refl _).mul ?_) ?_ <;>
    exact mul_entails_right.trans mul_entails_right

/-- A variable can be looked at where it is. -/
theorem State.held (h : State K L c m R) (name : Text) :
    ∃ v u, Engine.held L name c = (.done u, c) ∧
      (Evaluation.read name : Eval Value) m = .done v m ∧ c.Shows K v u := by
  have hheld : Engine.held L name c =
      (.done ((Table.get? (c.frame L) name).getD .null), c) := rfl
  have hread : (Evaluation.read name : Eval Value) m =
      .done ((Table.get? m.frame name).getD .null) m := rfl
  rw [hheld, hread]
  rcases h.lookup name with ⟨hget, hget'⟩ | ⟨v, w, hget, hget', hv⟩
  · rw [hget, hget']
    exact ⟨.null, .null, rfl, rfl, ∅, Finset.empty_subset _, rfl⟩
  · rw [hget, hget']
    exact ⟨v, w, rfl, rfl, hv⟩

theorem Follows.property_held (name key : Text) (token : Token) :
    Follows K L 1 (Engine.held L name >>= fun w => Exec.property w key token)
      ((Evaluation.read name : Eval Value) >>= fun v =>
        Evaluation.ofExcept token.location (v.getProperty key))
      (fun w v => word K v w) := by
  intro c m R hs
  obtain ⟨v, u, hheld, hread, hv⟩ := hs.held name
  simp only [Bind.bind, Exec.bind, Eval.bind, hheld, hread]
  rw [one_mul] at hs
  exact hs.property hv key token

theorem Follows.item_held (name : Text) (token : Token) :
    Follows K L (word K i u) (Engine.held L name >>= fun w => Exec.item w u token)
      ((Evaluation.read name : Eval Value) >>= fun v =>
        Evaluation.ofExcept token.location (v.getItem i))
      (fun w v => word K v w) := by
  intro c m R hs
  obtain ⟨v, w, hheld, hread, hv⟩ := hs.held name
  simp only [Bind.bind, Exec.bind, Eval.bind, hheld, hread]
  refine (hs.item hv (hs.learn fun _ _ _ hu => Depicts.shell_eq hu) token).imp ?_ mul_entails_right
  exact fun _ _ => (Entails.refl _).mul mul_entails_right

end

/-! ## Writing -/

/-- The memory with another word in a slot. -/
def Memory.put (σ : Memory) (w : Word) : Slot → Memory
  | .var _ _ => σ
  | .item a position => σ.modify a (Cell.setItem position w)
  | .field a key => σ.modify a (Cell.setField key w)

theorem Runtime.memory_write (c : Runtime) (slot : Slot) (w : Word) :
    (c.apply (.write slot w)).memory = c.memory.put w slot := by
  cases slot <;> rfl

@[simp] theorem Memory.size_put (σ : Memory) (w : Word) (slot : Slot) :
    (σ.put w slot).size = σ.size := by
  cases slot with
  | var level name => rfl
  | _ => exact σ.size_modify _ _

/-- Whatever word for one value is put into a slot, another word then stands for another value. All
of this happens inside a set of cells. -/
structure Slot.Fills (B : Stmt → Prop) (σ : Memory) (T : Finset Address) (r new : Value) (u : Word)
    (slot : Slot) : Prop where
  cells : ∀ w, (Change.write slot w).OfCells
  fill {σ' : Memory} {w : Word} {T' : Finset Address} : (∀ a ∈ T, σ'.cell? a = σ.cell? a) →
    Depicts B σ' r w T' → Disjoint T T' → Depicts B (σ'.put w slot) new u (T ∪ T')
  apart (σ' : Memory) (w : Word) {a : Address} : a ∉ T → (σ'.put w slot).cell? a = σ'.cell? a

section

variable {B : Stmt → Prop} {σ σ' : Memory} {T T₁ T₂ : Finset Address} {v r : Value} {u : Word}

/-- A write to a cell of one set does not reach the others. -/
theorem cell?_modify_apart (σ : Memory) (f : Cell → Cell) {a : Address} (ha : a ∈ T)
    {S : Finset Address} (hparts : Disjoint T S) : ∀ b ∈ S, (σ.modify a f).cell? b = σ.cell? b :=
  fun _ hb => σ.cell?_modify f fun hab => Finset.disjoint_left.mp hparts ha (hab ▸ hb)

theorem fills_item {a : Address} {items : List Value} {n : Nat}
    (h : Depicts B σ (.array items) (.array a) T) {part : Value} (hpart : items[n]? = some part)
    (r : Value) : Slot.Fills B σ T r (.array (items.set n r)) (.array a) (.item a n) where
  cells _ := trivial
  fill {σ' w T'} hσ hw hparts := by
    obtain ⟨ha, hcell, hitems⟩ := h.items_eq
    obtain ⟨w₁, S₁, S₂, -, -, hsub, -, hset⟩ := hitems.item hpart
    have hS₂ : S₂ ⊆ T.erase a := (Finset.union_subset_iff.mp hsub).2
    have hown : ∀ b ∈ S₂, (σ'.put w (.item a n)).cell? b = σ.cell? b := by
      intro b hb
      obtain ⟨hne, hin⟩ := Finset.mem_erase.mp (hS₂ hb)
      exact (σ'.cell?_modify _ hne).trans (hσ b hin)
    have hnew : Depicts B (σ'.put w (.item a n)) r w T' :=
      Depicts.congr r hw (cell?_modify_apart σ' _ ha hparts)
    have hS₂T : Disjoint T' S₂ := (hparts.mono_left (hS₂.trans (Finset.erase_subset a T))).symm
    refine depicts_array.mpr ⟨a, (σ.items a).set n w, rfl, Finset.mem_union_left T' ha, ?_,
      (hset hown hnew hS₂T).mono ?_⟩
    · rw [Memory.put, σ'.cell?_modify_self, hσ a ha, hcell]
      rfl
    · refine Finset.union_subset (fun b hb => ?_) fun b hb => ?_
      · exact Finset.mem_erase.mpr ⟨fun hab => Finset.disjoint_left.mp hparts ha (hab ▸ hb),
          Finset.mem_union_right T hb⟩
      · exact Finset.erase_subset_erase a Finset.subset_union_left (hS₂ hb)
  apart σ' w b hb := σ'.cell?_modify _ fun hab => hb (hab ▸ h.items_eq.1)

/-- The property need not be there, and it may have been made for the purpose. -/
theorem fills_field {a : Address} {fields : Table Value} {key : Text} {e e' : Table Word}
    (ha : a ∈ T) (hcell : σ.cell? a = some (.fields e'))
    (he : ∀ w, Table.insert key w e' = Table.insert key w e) (hsorted : Table.Sorted fields)
    (hfields : Spread (DepictsEntry B σ) fields e (T.erase a)) (r : Value) :
    Slot.Fills B σ T r (.object (Table.insert key r fields)) (.object a) (.field a key) where
  cells _ := trivial
  fill {σ' w T'} hσ hw hparts := by
    have hown : ∀ b ∈ T.erase a, (σ'.put w (.field a key)).cell? b = σ.cell? b := by
      intro b hb
      obtain ⟨hne, hin⟩ := Finset.mem_erase.mp hb
      exact (σ'.cell?_modify _ hne).trans (hσ b hin)
    have hnew : Depicts B (σ'.put w (.field a key)) r w T' :=
      Depicts.congr r hw (cell?_modify_apart σ' _ ha hparts)
    have hold : Spread (DepictsEntry B (σ'.put w (.field a key))) fields e (T.erase a) :=
      hfields.imp fun x _ y S hS hx =>
        ⟨hx.1, Depicts.congr x.2 hx.2 fun b hb => hown b (hS hb)⟩
    have hinsert := hold.insert key hnew (hparts.mono_left (Finset.erase_subset a T))
    refine depicts_object.mpr ⟨a, Table.insert key w e, rfl, Finset.mem_union_left T' ha, ?_,
      hsorted.insert key r, hinsert.mono ?_⟩
    · rw [Memory.put, σ'.cell?_modify_self, hσ a ha, hcell, ← he w]
      rfl
    · refine Finset.union_subset (Finset.erase_subset_erase a Finset.subset_union_left) ?_
      exact fun b hb => Finset.mem_erase.mpr
        ⟨fun hab => Finset.disjoint_left.mp hparts ha (hab ▸ hb), Finset.mem_union_right T hb⟩
  apart σ' w b hb := σ'.cell?_modify _ fun hab => hb (hab ▸ ha)

end

/-! ## Steps -/

theorem Value.eq_array {v : Value} (h : v.kind = .array) : ∃ items, v = .array items := by
  cases v with
  | array items => exact ⟨items, rfl⟩
  | _ => cases h

theorem Value.eq_object {v : Value} (h : v.kind = .object) : ∃ fields, v = .object fields := by
  cases v with
  | object fields => exact ⟨fields, rfl⟩
  | _ => cases h

/-- A step leads from a word to a slot inside of it, and to a part of its value. The part can be
replaced, and it can change where it is. -/
structure Step.Enters (B : Stmt → Prop) (c : Runtime) (v : Value) (u : Word) (T : Finset Address)
    (step : Step) (last : Bool) (next : Slot) (part : Value) (wrap : Value → Value) : Prop where
  run : Exec.slotInside u last step c = (.done next, c)
  replace (r : Value) (rest : List Step) : rest.isEmpty = last →
    Value.replace r (step :: rest) v = (Value.replace r rest part).map wrap
  fills (r : Value) : next.Fills B c.memory T r (wrap r) u
  inside : ∃ T₁ T₂, Disjoint T₁ T₂ ∧ T₁ ∪ T₂ ⊆ T ∧ Depicts B c.memory part (c.load next) T₁ ∧
    ∀ {σ' : Memory} {part' : Value} {T' : Finset Address},
      (∀ a ∈ T₂, σ'.cell? a = c.memory.cell? a) → Depicts B σ' part' (c.load next) T' →
        Disjoint T' T₂ → Depicts B σ' (wrap part') u (T' ∪ T₂)

section

variable {B : Stmt → Prop} {c : Runtime} {v : Value} {u : Word} {T : Finset Address}

/-- Parts that are still where they were, with the cell that refers to them. -/
theorem union_subset_erase {a : Address} {S T : Finset Address} (hS : a ∉ S)
    (hT : Disjoint T (insert a S)) : T ∪ S ⊆ (T ∪ insert a S).erase a := by
  refine Finset.union_subset (fun b hb => ?_) fun b hb => ?_
  · refine Finset.mem_erase.mpr ⟨?_, Finset.mem_union_left _ hb⟩
    rintro rfl
    exact Finset.disjoint_left.mp hT hb (Finset.mem_insert_self b S)
  · exact Finset.mem_erase.mpr ⟨fun hab => hS (hab ▸ hb),
      Finset.mem_union_right T (Finset.mem_insert_of_mem hb)⟩

theorem Depicts.enters_item {a : Address} {items : List Value} {p part : Value} {n : Nat}
    (h : Depicts B c.memory (.array items) (.array a) T) (hposition : p.position .integral = .ok n)
    (hget : items[n]? = some part) (token : Token) (last : Bool) :
    Step.Enters B c (.array items) (.array a) T (.index p token) last (.item a n) part
      (fun p => .array (items.set n p)) := by
  obtain ⟨ha, hcell, hitems⟩ := h.items_eq
  obtain ⟨w, S₁, S₂, hget', hparts, hsub, hpart, hset⟩ := hitems.item hget
  obtain ⟨hS₁, hS₂⟩ := Finset.union_subset_iff.mp hsub
  have haS₁ : a ∉ S₁ := fun hin => Finset.notMem_erase a T (hS₁ hin)
  have haS₂ : a ∉ S₂ := fun hin => Finset.notMem_erase a T (hS₂ hin)
  have hload : c.load (.item a n) = w := by
    simp [Runtime.load, List.getD_eq_getElem?_getD, hget']
  constructor
  · have hn : n < items.length := (List.getElem?_eq_some_iff.mp hget).1
    simp only [Exec.slotInside, hposition, Exec.items, Exec.ask, Bind.bind, Exec.bind,
      hitems.length_eq, if_pos hn]
    rfl
  · intro r rest _
    have hitem : (Value.array items).item .integral p = .ok (items, n, part) := by
      simp only [Value.item, hposition, Bind.bind, Except.bind, hget]
      rfl
    simp only [Value.replace, Value.atStep, hitem, Except.mapError, Bind.bind, Except.bind]
    cases Value.replace r rest part <;> rfl
  · exact fun r => fills_item h hget r
  · rw [hload]
    refine ⟨S₁, insert a S₂, Finset.disjoint_insert_right.mpr ⟨haS₁, hparts⟩, ?_, hpart, ?_⟩
    · refine Finset.union_subset (hS₁.trans (Finset.erase_subset a T)) ?_
      exact Finset.insert_subset ha (hS₂.trans (Finset.erase_subset a T))
    · intro σ' part' T' hσ hpart' hparts'
      have hsame := hset (fun b hb => hσ b (Finset.mem_insert_of_mem hb)) hpart'
        (Finset.disjoint_insert_right.mp hparts').2
      obtain ⟨hn, rfl⟩ := List.getElem?_eq_some_iff.mp hget'
      rw [List.set_getElem_self] at hsame
      refine depicts_array.mpr ⟨a, c.memory.items a, rfl, by simp, ?_,
        hsame.mono (union_subset_erase haS₂ hparts')⟩
      exact (hσ a (Finset.mem_insert_self a S₂)).trans hcell

theorem Exec.slotInside_index_of_kind (hu : u.kind ≠ .array) (p : Value) (token : Token)
    (last : Bool) : Exec.slotInside u last (.index p token) c =
      (.fault ⟨.notIndexable u.kind, token.location⟩, c) := by
  cases u with
  | array a => exact absurd rfl hu
  | _ => rfl

theorem Value.replace_index_of_kind (hv : v.kind ≠ .array) (r p : Value) (token : Token)
    (rest : List Step) : Value.replace r (.index p token :: rest) v =
      .error ⟨.notIndexable v.kind, token.location⟩ := by
  cases v with
  | array items => exact absurd rfl hv
  | _ => rfl

theorem Depicts.enters_index (h : Depicts B c.memory v u T) (p : Value) (token : Token)
    (last : Bool) :
    (∃ next part wrap, Step.Enters B c v u T (.index p token) last next part wrap) ∨
      ∃ f, Exec.slotInside u last (.index p token) c = (.fault f, c) ∧
        ∀ r rest, Value.replace r (.index p token :: rest) v = .error f := by
  by_cases hkind : v.kind = .array
  · obtain ⟨items, rfl⟩ := Value.eq_array hkind
    obtain ⟨a, -, rfl, -⟩ := depicts_array.mp h
    obtain ⟨ha, hcell, hitems⟩ := h.items_eq
    cases hposition : p.position .integral with
    | error cause =>
        refine .inr ⟨⟨cause, token.location⟩, ?_, fun r rest => ?_⟩
        · simp only [Exec.slotInside, hposition]
          rfl
        · simp only [Value.replace, Value.atStep, Value.item, hposition]
          rfl
    | ok n =>
        cases hget : items[n]? with
        | none =>
            have hn : ¬ n < items.length := Nat.not_lt.mpr (List.getElem?_eq_none_iff.mp hget)
            refine .inr ⟨⟨.indexBounds n items.length, token.location⟩, ?_, fun r rest => ?_⟩
            · simp only [Exec.slotInside, hposition, Exec.items, Exec.ask, Bind.bind, Exec.bind,
                hitems.length_eq, if_neg hn]
              rfl
            · simp only [Value.replace, Value.atStep, Value.item, hposition, Bind.bind,
                Except.bind, hget]
              rfl
        | some part => exact .inl ⟨_, _, _, h.enters_item hposition hget token last⟩
  · have hu : u.kind ≠ .array := by rwa [h.kind_eq]
    refine .inr ⟨_, Exec.slotInside_index_of_kind hu p token last, fun r rest => ?_⟩
    rw [h.kind_eq]
    exact Value.replace_index_of_kind hkind r p token rest

theorem Depicts.enters_field {a : Address} {fields : Table Value} {key : Text} {part : Value}
    (h : Depicts B c.memory (.object fields) (.object a) T)
    (hget : Table.get? fields key = some part) (token : Token) (last : Bool) :
    Step.Enters B c (.object fields) (.object a) T (.property key token) last (.field a key) part
      (fun p => .object (Table.insert key p fields)) := by
  obtain ⟨ha, hcell, hsorted, hfields⟩ := h.fields_eq
  obtain ⟨w, S₁, S₂, hget', hparts, hsub, hpart, hset⟩ := hfields.entry_in_place hsorted hget
  obtain ⟨hS₁, hS₂⟩ := Finset.union_subset_iff.mp hsub
  have haS₁ : a ∉ S₁ := fun hin => Finset.notMem_erase a T (hS₁ hin)
  have haS₂ : a ∉ S₂ := fun hin => Finset.notMem_erase a T (hS₂ hin)
  have hcontains : Table.contains fields key = true := Option.isSome_of_eq_some hget
  have hload : c.load (.field a key) = w := by simp [Runtime.load, hget']
  constructor
  · simp only [Exec.slotInside, Exec.fields, Exec.ask, Bind.bind, Exec.bind,
      hfields.contains_eq, hcontains, if_true]
    rfl
  · intro r rest _
    have hown : (Value.object fields).ownFields key rest.isEmpty = .ok fields :=
      if_pos (by simp [hcontains])
    simp only [Value.replace, Value.atStep, hown, Except.mapError, Bind.bind, Except.bind, hget,
      Option.getD_some]
    cases Value.replace r rest part <;> rfl
  · exact fun r => fills_field ha hcell (fun _ => rfl) hsorted hfields r
  · rw [hload]
    refine ⟨S₁, insert a S₂, Finset.disjoint_insert_right.mpr ⟨haS₁, hparts⟩, ?_, hpart, ?_⟩
    · refine Finset.union_subset (hS₁.trans (Finset.erase_subset a T)) ?_
      exact Finset.insert_subset ha (hS₂.trans (Finset.erase_subset a T))
    · intro σ' part' T' hσ hpart' hparts'
      have hsame := hset (fun b hb => hσ b (Finset.mem_insert_of_mem hb)) hpart'
        (Finset.disjoint_insert_right.mp hparts').2
      refine depicts_object.mpr ⟨a, c.memory.fields a, rfl, by simp, ?_, hsorted.insert key part',
        hsame.mono (union_subset_erase haS₂ hparts')⟩
      exact (hσ a (Finset.mem_insert_self a S₂)).trans hcell

/-- A last step can make the property that it leads to. -/
theorem Depicts.enters_new {a : Address} {fields : Table Value} {key : Text}
    (h : Depicts B c.memory (.object fields) (.object a) T)
    (hget : Table.get? fields key = none) (token : Token) (r : Value) :
    Exec.slotInside (.object a) true (.property key token) c =
        (.done (.field a key), c.apply (.write (.field a key) .null)) ∧
      Value.replace r [.property key token] (.object fields) =
        .ok (.object (Table.insert key r fields)) ∧
      Slot.Fills B (c.apply (.write (.field a key) .null)).memory T r
        (.object (Table.insert key r fields)) (.object a) (.field a key) := by
  obtain ⟨ha, hcell, hsorted, hfields⟩ := h.fields_eq
  have hcontains : Table.contains fields key = false := by simp [Table.contains, hget]
  refine ⟨?_, rfl, ?_⟩
  · simp only [Exec.slotInside, Exec.fields, Exec.ask, Bind.bind, Exec.bind,
      hfields.contains_eq, hcontains, if_true]
    rfl
  · have hmemory := c.memory_write (.field a key) .null
    have hnew : (c.apply (.write (.field a key) .null)).memory.cell? a =
        some (.fields (Table.insert key .null (c.memory.fields a))) := by
      rw [hmemory, Memory.put, c.memory.cell?_modify_self, hcell]
      rfl
    refine fills_field ha hnew (fun w => Table.insert_insert key w .null _) hsorted ?_ r
    refine hfields.imp fun x _ y S hS hx => ⟨hx.1, Depicts.congr x.2 hx.2 fun b hb => ?_⟩
    rw [hmemory]
    exact c.memory.cell?_modify _ (Finset.ne_of_mem_erase (hS hb))

theorem Exec.slotInside_property_of_kind (hu : u.kind ≠ .object) (key : Text) (token : Token)
    (last : Bool) : Exec.slotInside u last (.property key token) c =
      (.fault ⟨if last then .unsettable key u.kind else .unreadable key u.kind, token.location⟩,
        c) := by
  cases u with
  | object a => exact absurd rfl hu
  | _ => rfl

theorem Value.replace_property_of_kind (hv : v.kind ≠ .object) (r : Value) (key : Text)
    (token : Token) (rest : List Step) : Value.replace r (.property key token :: rest) v =
      .error ⟨if rest.isEmpty then .unsettable key v.kind else .unreadable key v.kind,
        token.location⟩ := by
  cases v with
  | object fields => exact absurd rfl hv
  | _ => rfl

theorem Depicts.enters_property (h : Depicts B c.memory v u T) (key : Text) (token : Token)
    (last : Bool) :
    (∃ next part wrap, Step.Enters B c v u T (.property key token) last next part wrap) ∨
      (last = true ∧ ∃ a fields, v = .object fields ∧ u = .object a ∧
        Table.get? fields key = none) ∨
      ∃ f, Exec.slotInside u last (.property key token) c = (.fault f, c) ∧
        ∀ r rest, rest.isEmpty = last →
          Value.replace r (.property key token :: rest) v = .error f := by
  by_cases hkind : v.kind = .object
  · obtain ⟨fields, rfl⟩ := Value.eq_object hkind
    obtain ⟨a, -, rfl, -⟩ := depicts_object.mp h
    obtain ⟨-, -, -, hfields⟩ := h.fields_eq
    cases hget : Table.get? fields key with
    | some part => exact .inl ⟨_, _, _, h.enters_field hget token last⟩
    | none =>
        cases last with
        | true => exact .inr (.inl ⟨rfl, a, fields, rfl, rfl, hget⟩)
        | false =>
            have hcontains : Table.contains fields key = false := by simp [Table.contains, hget]
            refine .inr (.inr ⟨⟨.missingProperty key (className fields), token.location⟩, ?_, ?_⟩)
            · simp only [Exec.slotInside, Exec.fields, Exec.ask, Bind.bind, Exec.bind,
                hfields.contains_eq, hcontains, hfields.className_eq]
              rfl
            · intro r rest hrest
              simp only [Value.replace, Value.atStep, Value.ownFields, hrest, hcontains]
              rfl
  · have hu : u.kind ≠ .object := by rwa [h.kind_eq]
    refine .inr (.inr ⟨_, Exec.slotInside_property_of_kind hu key token last, ?_⟩)
    rintro r rest rfl
    rw [h.kind_eq]
    exact Value.replace_property_of_kind hkind r key token rest

/-! ## Paths -/

/-- What fills a part fills the whole. -/
theorem Slot.Fills.inside {σ₁ : Memory} {T₁ T₂ : Finset Address} {r part new : Value} {u₁ : Word}
    {slot : Slot} (h : slot.Fills B σ₁ T₁ r part u₁) (hparts : Disjoint T₁ T₂)
    (hsub : T₁ ∪ T₂ ⊆ T) (hσ₁ : ∀ a ∈ T₂, σ₁.cell? a = c.memory.cell? a)
    (hwhole : ∀ {σ' : Memory} {T' : Finset Address}, (∀ a ∈ T₂, σ'.cell? a = c.memory.cell? a) →
      Depicts B σ' part u₁ T' → Disjoint T' T₂ → Depicts B σ' new u (T' ∪ T₂)) :
    slot.Fills B σ₁ T r new u where
  cells := h.cells
  fill {σ' w T'} hσ hw hapart := by
    obtain ⟨h₁, h₂⟩ := Finset.union_subset_iff.mp hsub
    have hpart := h.fill (fun a ha => hσ a (h₁ ha)) hw (hapart.mono_left h₁)
    have hrest : ∀ a ∈ T₂, (σ'.put w slot).cell? a = c.memory.cell? a := fun a ha => by
      rw [h.apart σ' w (Finset.disjoint_right.mp hparts ha), hσ a (h₂ ha), hσ₁ a ha]
    have hdisjoint : Disjoint (T₁ ∪ T') T₂ :=
      Finset.disjoint_union_left.mpr ⟨hparts, (hapart.mono_left h₂).symm⟩
    refine (hwhole hrest hpart hdisjoint).mono ?_
    rw [Finset.union_right_comm]
    exact Finset.union_subset_union hsub Finset.Subset.rfl
  apart σ' w a ha := h.apart σ' w fun hin => ha (hsub (Finset.mem_union_left T₂ hin))

/-- A path leads to a slot to be filled, or ends in a fault that leaves everything as it was. On the
way only the slot itself may be made. -/
def Slot.Resolves (B : Stmt → Prop) (c : Runtime) (T : Finset Address) (v r : Value)
    (steps : List Step) (slot : Slot) : Prop :=
  (∃ f, Exec.slotAfter slot steps c = (.fault f, c) ∧ Value.replace r steps v = .error f) ∨
    ∃ new slot' c', Exec.slotAfter slot steps c = (.done slot', c') ∧
      Value.replace r steps v = .ok new ∧ (c' = c ∨ c' = c.apply (.write slot' .null)) ∧
      slot'.Fills B c'.memory T r new (c.load slot)

theorem Exec.slotAfter_cons (slot : Slot) (step : Step) (rest : List Step) {next : Slot}
    {c' : Runtime} (h : Exec.slotInside (c.load slot) rest.isEmpty step c = (.done next, c')) :
    Exec.slotAfter slot (step :: rest) c = Exec.slotAfter next rest c' := by
  simp only [Exec.slotAfter, Exec.load, Exec.ask, Bind.bind, Exec.bind, h]

theorem Exec.slotAfter_cons_fault (slot : Slot) (step : Step) (rest : List Step) {f : Fault}
    (h : Exec.slotInside (c.load slot) rest.isEmpty step c = (.fault f, c)) :
    Exec.slotAfter slot (step :: rest) c = (.fault f, c) := by
  simp only [Exec.slotAfter, Exec.load, Exec.ask, Bind.bind, Exec.bind, h]

theorem Step.Enters.resolves {step : Step} {rest : List Step} {slot next : Slot} {r part : Value}
    {wrap : Value → Value}
    (h : Step.Enters B c v (c.load slot) T step rest.isEmpty next part wrap)
    (hrest : ∀ {T₁}, rest ≠ [] → Depicts B c.memory part (c.load next) T₁ →
      next.Resolves B c T₁ part r rest) :
    slot.Resolves B c T v r (step :: rest) := by
  rw [Slot.Resolves, Exec.slotAfter_cons slot step rest h.run, h.replace r rest rfl]
  cases rest with
  | nil => exact .inr ⟨wrap r, next, c, rfl, rfl, .inl rfl, h.fills r⟩
  | cons step' rest' =>
      obtain ⟨T₁, T₂, hparts, hsub, hpart, hwhole⟩ := h.inside
      rcases hrest (List.cons_ne_nil _ _) hpart with ⟨f, hf, hreplace⟩ |
        ⟨new, slot', c', hdone, hreplace, hc', hfills⟩
      · exact .inl ⟨f, hf, by rw [hreplace]; rfl⟩
      · refine .inr ⟨wrap new, slot', c', hdone, by rw [hreplace]; rfl, hc', ?_⟩
        refine hfills.inside hparts hsub (fun a ha => ?_) hwhole
        rcases hc' with rfl | rfl
        · rfl
        · rw [c.memory_write]
          exact hfills.apart c.memory .null (Finset.disjoint_right.mp hparts ha)

theorem Depicts.resolves {steps : List Step} (hsteps : steps ≠ []) {slot : Slot}
    (h : Depicts B c.memory v (c.load slot) T) (r : Value) : slot.Resolves B c T v r steps := by
  induction steps generalizing slot v T with
  | nil => exact absurd rfl hsteps
  | cons step rest ih =>
      cases step with
      | index p token =>
          rcases h.enters_index p token rest.isEmpty with ⟨next, part, wrap, henters⟩ |
            ⟨f, hf, hreplace⟩
          · exact henters.resolves fun hne hpart => ih hne hpart
          · exact .inl ⟨f, Exec.slotAfter_cons_fault slot _ rest hf, hreplace r rest⟩
      | property key token =>
          rcases h.enters_property key token rest.isEmpty with ⟨next, part, wrap, henters⟩ |
            ⟨hlast, a, fields, rfl, hu, hget⟩ | ⟨f, hf, hreplace⟩
          · exact henters.resolves fun hne hpart => ih hne hpart
          · obtain rfl := List.isEmpty_iff.mp hlast
            rw [hu] at h
            obtain ⟨hrun, hreplace, hfills⟩ := h.enters_new hget token r
            rw [← hu] at hrun hfills
            exact .inr ⟨_, _, _, Exec.slotAfter_cons slot _ [] hrun, hreplace, .inr rfl, hfills⟩
          · exact .inl ⟨f, Exec.slotAfter_cons_fault slot _ rest hf, hreplace r rest rfl⟩

end

/-! ## Assignments -/

/-- The cells of a set, as they are in a certain memory. -/
def Assertion.snapshot (T : Finset Address) (σ₀ : Memory) : Assertion where
  Holds σ _ S := T ⊆ S ∧ ∀ a ∈ T, σ.cell? a = σ₀.cell? a
  mono h hS := ⟨h.1.trans hS, h.2⟩
  stable h hσ _ := ⟨h.1, fun a ha => (hσ a (.inr (h.1 ha))).trans (h.2 a ha)⟩

/-- A step with an index of which only the kind and the number are known. -/
def Step.shell : Step → Step
  | .index position token => .index position.shell token
  | .property name token => .property name token

theorem Value.item_shell (v p : Value) (precision : Value.Precision) :
    v.item precision p.shell = v.item precision p := by
  cases v with
  | array items => simp only [Value.item, Value.position_shell]
  | _ => rfl

theorem Value.replace_shell (r : Value) (steps : List Step) (v : Value) :
    Value.replace r (steps.map Step.shell) v = Value.replace r steps v := by
  induction steps generalizing v with
  | nil => rfl
  | cons step rest ih =>
      cases step with
      | index p token =>
          simp only [List.map_cons, Step.shell, Value.replace, Value.atStep, Step.token,
            Value.item_shell, ih]
      | property key token =>
          simp only [List.map_cons, Step.shell, Value.replace, ih, List.isEmpty_map]

section

variable {K : Charter} {L : Nat} {c c' : Runtime} {m : Machine} {R : Assertion} {r : Value}
  {w u : Word} {slot : Slot} {T S : Finset Address}

/-- Making a slot changes no other cells than filling it does. -/
theorem Scene.make {new : Value} (h : Scene K c m (snapshot S c.memory * R)) (hT : T ⊆ S)
    (hc' : c' = c ∨ c' = c.apply (.write slot .null))
    (hfills : slot.Fills K.Body c'.memory T r new u) :
    Scene K c' m (snapshot S c'.memory * R) ∧ c'.frames = c.frames ∧ K.Reaches c c' := by
  rcases hc' with rfl | rfl
  · exact ⟨h, rfl, .refl K _⟩
  · have hmemory := c.memory_write slot .null
    refine h.cells (hfills.cells .null) (by simp [hmemory]) fun Z S' _ hS' hsnap => ⟨?_, S', ?_⟩
    · intro a _ ha
      rw [hmemory]
      exact hfills.apart c.memory .null fun hin => ha (hsnap.1 (hT hin))
    · refine ⟨?_, fun a ha => .inl ha, hsnap.1, fun _ _ => rfl⟩
      rwa [hmemory, Memory.Has, Memory.size_put]

/-- Filling a slot inside a variable changes what the table of variables stands for. -/
theorem Scene.fill {t' : Table Value} {e : Table Word} {new : Value} {T₂ : Finset Address}
    {σ₀ : Memory} (h : Scene K c m (snapshot S σ₀ * word K r w * R)) (hsub : T ∪ T₂ ⊆ S)
    (hparts : Disjoint T T₂) (hfills : slot.Fills K.Body σ₀ T r new u)
    (hsorted : Table.Sorted t')
    (hset : ∀ {σ' : Memory} {S' : Finset Address}, (∀ a ∈ T₂, σ'.cell? a = σ₀.cell? a) →
      Depicts K.Body σ' new u S' → Disjoint S' T₂ →
        Spread (DepictsEntry K.Body σ') t' e (S' ∪ T₂)) :
    Scene K (c.apply (.write slot w)) m (table K t' e * R) ∧
      (c.apply (.write slot w)).frames = c.frames ∧ K.Reaches c (c.apply (.write slot w)) := by
  have hmemory := c.memory_write slot w
  obtain ⟨hT, hT₂⟩ := Finset.union_subset_iff.mp hsub
  refine h.cells (hfills.cells w) (by simp [hmemory]) fun Z S' _ hS' hholds => ?_
  obtain ⟨S₁, S₂, hown, hsub', ⟨hS₁, hsnap⟩, hw⟩ := hholds
  obtain ⟨h₁, h₂⟩ := Finset.union_subset_iff.mp hsub'
  have hTS₁ : T ⊆ S₁ := hT.trans hS₁
  have hT₂S₁ : T₂ ⊆ S₁ := hT₂.trans hS₁
  have hnew : Depicts K.Body (c.memory.put w slot) new u (T ∪ S₂) :=
    hfills.fill (fun a ha => hsnap a (hT ha)) hw (hown.mono_left hTS₁)
  have hrest : ∀ a ∈ T₂, (c.memory.put w slot).cell? a = σ₀.cell? a := fun a ha => by
    rw [hfills.apart c.memory w (Finset.disjoint_right.mp hparts ha), hsnap a (hT₂ ha)]
  have hapart : Disjoint (T ∪ S₂) T₂ :=
    Finset.disjoint_union_left.mpr ⟨hparts, (hown.mono_left hT₂S₁).symm⟩
  have hall : T ∪ S₂ ∪ T₂ ⊆ S' :=
    Finset.union_subset (Finset.union_subset (hTS₁.trans h₁) h₂) (hT₂S₁.trans h₁)
  rw [hmemory]
  refine ⟨fun a _ ha => ?_, T ∪ S₂ ∪ T₂, ?_, fun a ha => .inl (hall ha), hsorted,
    hset hrest hnew hapart⟩
  · exact hfills.apart c.memory w fun hin => ha (h₁ (hTS₁ hin))
  · rw [Memory.Has, Memory.size_put]
    exact hall.trans hS'

/-- What becomes of an assignment to a part of a variable. A fault leaves everything as it was. -/
def State.Stores (K : Charter) (L : Nat) (R : Assertion) (name : Text) (token : Token)
    (steps : List Step) (r : Value) (w : Word) (c : Runtime) (m : Machine) : Prop :=
  (∃ f, Exec.store L name token (steps.map Step.shell) w c = (.fault f, c) ∧
      (Env.store name token steps r : Eval Unit) m = .fault f m) ∨
    ∃ new c', Exec.store L name token (steps.map Step.shell) w c = (.done (), c') ∧
      (Env.store name token steps r : Eval Unit) m =
        .done () { m with frame := Table.insert name new m.frame } ∧
      State K L c' { m with frame := Table.insert name new m.frame } (word K r w * R) ∧
      Undisturbed K L c c'

theorem Exec.store_none {name : Text} (hget : Table.get? m.frame name = none)
    (hget' : Table.get? (c.frame L) name = none) (token : Token) (steps : List Step) (r : Value)
    (w : Word) :
    ∃ f, Exec.store L name token (steps.map Step.shell) w c = (.fault f, c) ∧
      (Env.store name token steps r : Eval Unit) m = .fault f m := by
  have hlookup : (Evaluation.lookup? name : Eval (Option Value)) m = .done none m := by
    rw [← hget]
    rfl
  simp only [Exec.store, Exec.lookup?, Exec.ask, Env.store, Bind.bind, Exec.bind, Eval.bind,
    hlookup, hget']
  cases steps with
  | nil => exact ⟨_, rfl, rfl⟩
  | cons step rest => cases step <;> exact ⟨_, rfl, rfl⟩

theorem State.store_inside {name : Text} {old : Value} {steps : List Step} (hsteps : steps ≠ [])
    (h : State K L c m (word K r w * R)) (hget : Table.get? m.frame name = some old)
    (token : Token) : State.Stores K L R name token steps r w c m := by
  obtain ⟨Z, S, hZ, hS, hzone, hheap, S₁, S₂, hown, hsub, ⟨hsorted, hframe⟩, hrest⟩ := h.provides
  obtain ⟨u, T, T₂, hget', hparts, hsub', hold, hset⟩ := hframe.entry_in_place hsorted hget
  obtain ⟨hT, hT₂⟩ := Finset.union_subset_iff.mp hsub'
  have hload : c.load (.var L name) = u := by simp [Runtime.load, hget']
  have hlookup : (Evaluation.lookup? name : Eval (Option Value)) m = .done (some old) m := by
    rw [← hget]
    rfl
  have hmap : steps.map Step.shell ≠ [] := by simpa using hsteps
  rw [← hload] at hold
  rcases hold.resolves hmap r with ⟨f, hf, hreplace⟩ | ⟨new, slot, c₁, hdone, hreplace, hc₁, hfills⟩
  · rw [Value.replace_shell] at hreplace
    refine .inl ⟨f, ?_, ?_⟩
    · simp only [Exec.store, Exec.lookup?, Exec.ask, Bind.bind, Exec.bind, hget', hf]
    · simp only [Env.store, Bind.bind, Eval.bind, hlookup, hreplace]
      rfl
  · rw [Value.replace_shell] at hreplace
    rw [hload] at hfills
    -- The cells of the frame are kept in view while the value is copied.
    have hsnap : Scene K c m (snapshot S₁ c.memory * (word K r w * R)) :=
      { h.toScene with provides := ⟨Z, S, hZ, hS, hzone, hheap, S₁, S₂, hown, hsub,
          ⟨Finset.Subset.rfl, fun _ _ => rfl⟩, hrest⟩ }
    obtain ⟨hscene₁, hframes₁, hreach₁⟩ := hsnap.make hT hc₁ hfills
    rw [mul_left_comm] at hscene₁
    obtain ⟨w', c₂, hcopy, hscene₂, hframes₂, hreach₂⟩ := Yields.copy c₁ m _ hscene₁
    have hsame : ∀ a ∈ T₂, c₁.memory.cell? a = c.memory.cell? a := fun a ha => by
      rcases hc₁ with rfl | rfl
      · rfl
      · rw [c.memory_write]
        exact hfills.apart c.memory .null (Finset.disjoint_right.mp hparts ha)
    have hscene₂ : Scene K c₂ m (snapshot S₁ c₁.memory * word K r w' * (word K r w * R)) := by
      rwa [mul_assoc, mul_left_comm (word K r w), mul_left_comm, ← mul_assoc] at hscene₂
    obtain ⟨hscene₃, hframes₃, hreach₃⟩ := hscene₂.fill hsub' hparts hfills
      (hsorted.insert name new) fun hσ hnew hapart =>
        hset (fun a ha => (hσ a ha).trans (hsame a ha)) hnew hapart
    have hframes : (c₂.apply (.write slot w')).frames = c.frames :=
      hframes₃.trans (hframes₂.trans hframes₁)
    have hlevels (level : Nat) : (c₂.apply (.write slot w')).frame level = c.frame level := by
      simp only [Runtime.frame, hframes]
    refine .inr ⟨new, c₂.apply (.write slot w'), ?_, ?_, ?_, ?_⟩
    · simp only [Exec.store, Exec.lookup?, Exec.ask, Bind.bind, Exec.bind, hget', hdone, hcopy]
      rfl
    · simp only [Env.store, Bind.bind, Eval.bind, hlookup, hreplace]
      rfl
    · refine ⟨⟨hscene₃.depth, hscene₃.printed, hscene₃.nextBody, ?_⟩, hframes ▸ h.level⟩
      rw [hlevels]
      exact hscene₃.provides
    · exact ⟨hreach₁.trans (hreach₂.trans hreach₃), by rw [hframes], fun level _ => hlevels level⟩

theorem State.store_whole {name : Text} {old : Value} (h : State K L c m (word K r w * R))
    (hget : Table.get? m.frame name = some old)
    (hget' : Table.get? (c.frame L) name = some u) (token : Token) :
    State.Stores K L R name token [] r w c m := by
  have hlookup : (Evaluation.lookup? name : Eval (Option Value)) m = .done (some old) m := by
    rw [← hget]
    rfl
  obtain ⟨w', c₁, hcopy, hs₁, hu₁⟩ := Yields.copy.run h
  rw [mul_assoc] at hs₁
  cases Follows.assign name c₁ m _ hs₁ with
  | done hs₂ hu₂ =>
      rw [one_mul] at hs₂
      refine .inr ⟨r, _, ?_, ?_, hs₂, hu₁.trans hu₂⟩
      · simp only [Exec.store, List.map_nil, Exec.lookup?, Exec.ask, Exec.slotAfter, Bind.bind,
          Exec.bind, Pure.pure, Exec.pure, hget', hcopy]
        rfl
      · simp only [Env.store, Bind.bind, Eval.bind, hlookup]
        rfl

theorem State.store (h : State K L c m (word K r w * R)) (name : Text) (token : Token)
    (steps : List Step) : State.Stores K L R name token steps r w c m := by
  rcases h.lookup name with ⟨hget, hget'⟩ | ⟨old, u, hget, hget', -⟩
  · exact .inl (Exec.store_none hget hget' token steps r w)
  · cases steps with
    | nil => exact h.store_whole hget hget' token
    | cons step rest => exact h.store_inside (List.cons_ne_nil _ _) hget token

theorem Follows.store (name : Text) (token : Token) (steps : List Step) :
    Follows K L (word K r w) (Exec.store L name token (steps.map Step.shell) w)
      (Env.store name token steps r : Eval Unit) (fun _ _ => word K r w) := by
  intro c m R hs
  rcases hs.store name token steps with ⟨f, hf, hf'⟩ | ⟨new, c', hdone, hdone', hs', hu⟩
  · rw [hf, hf']
    exact .fault (hs.imp mul_entails_right) (.refl K L c)
  · rw [hdone, hdone']
    exact .done hs' hu

end

end Script
