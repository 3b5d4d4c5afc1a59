import DesignCompiler.Command.Run
import DesignCompiler.Proofs.Outcome
import DesignCompiler.Proofs.Runs

/-!
# DesignCompiler — runs of commands

The run of a command has a result and the session it leaves behind. It is worked out from the runs of
its steps.

* `run_note`, `run_print`, `run_consult` — single steps;
* `run_forM_note` — an action for each member of a list;
* `runCommand_of_ok`, `runCommand_of_error` — the report of a run.
-/

namespace DesignCompiler.Command

variable {α : Type}

theorem run_note (level : Level) (message : String) (s : Session) :
    (note level message).run.run s = (.ok (), { s with log := s.log ++ [(level, message)] }) := rfl

theorem run_info (message : String) (s : Session) :
    (info message).run.run s = (.ok (), { s with log := s.log ++ [(.info, message)] }) := rfl

theorem run_print (text : String) (s : Session) :
    (print text).run.run s = (.ok (), { s with printed := s.printed ++ text }) := rfl

/-- What is read from the files leaves the session as it is. -/
theorem run_consult (wrap : Failure → Failure) (f : Disk → Except ProjectError α) (s : Session) :
    (consult wrap f).run.run s = ((f s.disk).mapError fun e => wrap (.ofProject e), s) := by
  rw [consult, run_bind, run_get]
  cases h : f s.disk <;> simp only [h] <;> rfl

theorem run_consult_eq_ok {wrap : Failure → Failure} {f : Disk → Except ProjectError α} {a : α}
    {s s' : Session} (h : (consult wrap f).run.run s = (.ok a, s')) : f s.disk = .ok a ∧ s' = s := by
  rw [run_consult] at h
  obtain ⟨hf, rfl⟩ := Prod.mk.inj h
  exact ⟨mapError_eq_ok_iff.mp hf, rfl⟩

/-- A line of the log for each member of a list. -/
theorem run_forM_note (level : Level) (message : α → String) (l : List α) (s : Session) :
    (forM l fun a => note level (message a)).run.run s =
      (.ok (), { s with log := s.log ++ l.map fun a => (level, message a) }) := by
  induction l generalizing s with
  | nil => rw [List.forM_nil, run_pure, List.map_nil, List.append_nil]
  | cons a l ih =>
    rw [List.forM_cons, run_bind, run_note]
    simp only [ih, List.map_cons, List.append_assoc, List.singleton_append]

/-! ## Reports -/

variable [Readers] {disk : Disk} {config : String} {c : Subcommand} {s : Session}

theorem run_of_arguments {arguments : List String}
    (h : Invocation.ofArguments arguments = some (.run config c)) :
    run disk arguments = runCommand disk config c := by
  rw [run, h]

theorem runCommand_of_ok (h : (runSteps config c).run.run { disk } = (.ok (), s)) :
    runCommand disk config c =
      { exit := 0, printed := s.printed, log := s.log, disk := s.disk } := by
  rw [runCommand, h]

theorem runCommand_of_error {f : Failure}
    (h : (runSteps config c).run.run { disk } = (.error f, s)) :
    runCommand disk config c =
      { exit := 1, printed := s.printed, log := s.log, failure := some f, disk := s.disk } := by
  rw [runCommand, h]

end DesignCompiler.Command
