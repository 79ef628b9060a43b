import Script.Proofs.Shape

/-! # Places of reports

Whatever is reported about a program is placed at one of its tokens: a refusal at the token that is
refused, and a fault at the token of a node or of a function. The start of a program is the only
place outside of it. -/

namespace Script

/-- A location is that of one of the tokens. -/
def Location.IsAmong (tokens : List Token) (location : Location) : Prop :=
  ∃ t ∈ tokens, t.location = location

/-! ## Refusals -/

theorem SyntaxError.isAmong_of_parse {tokens : List Token} (hfinished : Grammar.Finished tokens)
    {e : SyntaxError} (h : Program.parse tokens = .error e) : e.location.IsAmong tokens := by
  have hviable := Parser.program_viable fun _ : Unit => Nat.lt_succ_self (tokens.length + 2)
  cases hviable.course tokens hfinished.ended le_rfl with
  | takes _ _ _ hok _ =>
    rw [Program.parse_of_ok hfinished hok] at h
    cases h
  | @refuses w t v complaint hsplit _ _ herror _ _ =>
    rw [Program.parse_of_error hfinished herror] at h
    cases h
    exact ⟨t, by simp [hsplit], rfl⟩

/-! ## Nodes -/

/-- Every node of a program is reported at one of the tokens. -/
structure Program.Reported (program : Program) (tokens : List Token) : Prop where
  expr {e : Expr} : e ∈ program.exprs → e ≠ .hole → e.token ∈ tokens
  statement {s : Stmt} : s ∈ program.statements → s ≠ .hole → s.token ∈ tokens

theorem Program.reported_of_parse {tokens : List Token} {program : Program}
    (hfinished : Grammar.Finished tokens) (hparse : Program.parse tokens = .ok program) :
    program.Reported tokens := by
  obtain ⟨last, hlast, hend⟩ := hfinished
  obtain ⟨-, w, t, rest, rfl, -, hbody⟩ := Program.body_of_parse hlast hend hparse
  constructor
  · intro e he hhole
    obtain ⟨s, hs, whole, hwhole, he⟩ := Program.exists_of_mem_exprs he
    exact List.mem_append_left _ (hbody.occurs hs hwhole he hhole).token_mem
  · exact fun hs hhole => List.mem_append_left _ (hbody.token_mem hs hhole)

/-! ## Faults -/

theorem Program.Misuses.isAmong {program : Program} {tokens : List Token}
    (hreported : program.Reported tokens) (hshaped : program.Shaped) {f : Fault}
    (h : program.Misuses f) : f.location.IsAmong tokens := by
  cases h with
  | call hcall _ => exact ⟨_, hreported.expr hcall (by simp), rfl⟩
  | assign hassign _ =>
      obtain ⟨hroot, hhole⟩ := hshaped.root hassign
      exact ⟨_, hreported.expr hroot hhole, rfl⟩

theorem Program.Raises.isAmong {program : Program} {tokens : List Token}
    (hreported : program.Reported tokens) (hshaped : program.Shaped) {started : Bool} {f : Fault}
    (h : program.Raises started f.cause f.location) :
    f.location.IsAmong tokens ∨
      started = true ∧ f.cause.AboutMain ∧ f.location = Env.entry := by
  by_cases hcause : f.cause.AboutShape
  · exact .inl ((h.misuses hshaped hcause).isAmong hreported hshaped)
  obtain ⟨cause, location⟩ := f
  cases h with
  | expr he hhole _ => exact .inl ⟨_, hreported.expr he hhole, rfl⟩
  | function hfunc _ => exact .inl ⟨_, hreported.statement hfunc (by simp), rfl⟩
  | callee _ _ | target _ _ | member _ _ _ => simp at hcause
  | start hstarted hmain => exact .inr ⟨hstarted, hmain, rfl⟩

/-- Every refusal of a scanned text is placed at one of its tokens. So is every fault of the program
it spells, however the program is run, but for a start that finds no function to start with. -/
theorem reports_placed_at_tokens {file text : Text} {source : Option Source} {tokens : List Token}
    (hscan : Token.scan file source text = .ok tokens) :
    (∀ e, Program.parse tokens = .error e → e.location.IsAmong tokens) ∧
      ∀ program, Program.parse tokens = .ok program →
      ∀ (args : Option (List Text)) (limit rounds : Nat) (f : Fault) (m : Machine),
        (({} : Session).setLimit limit).perform rounds (Operation.ofProgram program args).perform =
          .fault f m →
        f.location.IsAmong tokens ∨
          args.isSome = true ∧ f.cause.AboutMain ∧ f.location = Env.entry := by
  have hfinished := Token.scan_finished hscan
  refine ⟨fun e => SyntaxError.isAmong_of_parse hfinished, ?_⟩
  intro program hparse args limit rounds f m hfault
  have hreported := Program.reported_of_parse hfinished hparse
  have hshaped := Program.shaped_of_parse hfinished hparse
  exact (Program.raises_of_fault hfault).isAmong hreported hshaped

/-- An object of a class on the first line is shown by the second line. The fault is in between, in
the function that shows it. -/
theorem fault_of_shown_object_placed :
    let text : Text := "class A \x7b func ~display(self) \x7b f(1) \x7d \x7d\nprint(new A())"
    let fault : Fault := ⟨.undefinedFunction "f", ⟨"<input>", 1, 33, 1, none⟩⟩
    ∃ tokens program m, Token.scan [] none text = .ok tokens ∧
      Program.parse tokens = .ok program ∧
      (({} : Session).setLimit 9).perform 4 (Operation.ofProgram program none).perform =
        .fault fault m ∧
      fault.location.IsAmong tokens := by
  intro text fault
  obtain ⟨tokens, program, m, hscan, hparse, hfault⟩ : ∃ tokens program m,
      Token.scan [] none text = .ok tokens ∧ Program.parse tokens = .ok program ∧
      (({} : Session).setLimit 9).perform 4 (Operation.ofProgram program none).perform =
        .fault fault m := ⟨_, _, _, rfl, rfl, rfl⟩
  refine ⟨tokens, program, m, hscan, hparse, hfault, ?_⟩
  rcases (reports_placed_at_tokens hscan).2 program hparse none 9 4 fault m hfault with h | h
  · exact h
  · cases h.1

end Script
