import Script.Proofs.Layout.Evaluation
import Script.Proofs.Layout.Parsing
import Script.Proofs.Limit

/-!
# Layout

How a program is laid out, in which file and with which comments, shows in the places of its tokens
only. Parsing and evaluation carry places along and report them, but what they do is the same in
every layout.
-/

namespace Script

theorem Token.scan_finished {file text : Text} {source : Option Source} {tokens : List Token}
    (h : scan file source text = .ok tokens) : Grammar.Finished tokens := by
  obtain ⟨w, last, rfl, hlast, -⟩ := scanFrom_spelling h
  exact ⟨last, List.getLast?_concat, hlast⟩

/-! ## Ends of operations -/

theorem Outcome.unplaced_eq_exhausted {α β : Type} {f : α → β} {o : Outcome α} :
    o.unplaced f = .exhausted ↔ o = .exhausted := by
  cases o <;> simp [Outcome.unplaced]

namespace Session

section

variable {α : Type} {s s' : Session} {op op' : Operation} {f : op.Result → α}
  {f' : op'.Result → α}

/-- What one operation ends with in many rounds, the other ends with too. -/
theorem Ends.alike (least : Nat)
    (h : ∀ rounds, least ≤ rounds → (s.perform rounds op.perform).unplaced f =
      (s'.perform rounds op'.perform).unplaced f') {o : Outcome op.Result} (ho : s.Ends op o) :
    ∃ o', s'.Ends op' o' ∧ o'.unplaced f' = o.unplaced f := by
  obtain ⟨hgiven, rounds, rfl⟩ := ho
  have hlarge := h (rounds + least) (Nat.le_add_left least rounds)
  rw [s.perform_add op least hgiven] at hlarge
  refine ⟨_, ⟨fun hexhausted => hgiven ?_, rounds + least, rfl⟩, hlarge.symm⟩
  rwa [← Outcome.unplaced_eq_exhausted, hlarge, Outcome.unplaced_eq_exhausted]

end

variable {p p' : Program} (hp : p.unplaced = p'.unplaced) {s s' : Session}
  (hs : s.unplaced = s'.unplaced)
include hp hs

end Session

end Script
