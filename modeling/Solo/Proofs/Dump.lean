import Solo.CommandLine.Transcript
import Solo.Proofs.Actions
import Solo.Proofs.Printing

/-! What the command writes. The first line holds the words of the code, which can be read off it, and
the listing follows if it is asked for. Then the command ends as a run of the source does: with the
result, or with the fault over which the run fails. -/

namespace Solo

/-- The words that stand between blanks. -/
def Numeral.words (text : String) : Except NumeralError (List Word) :=
  ((text.toList.splitOn ' ').filter (!·.isEmpty)).mapM word

theorem Numeral.mapM_word_text (ws : List Word) :
    (ws.map fun w => (Word.text w).toList).mapM word = .ok ws := by
  induction ws with
  | nil => rfl
  | cons w ws ih =>
    rw [List.map_cons, List.mapM_cons, Word.word_text, ih]
    rfl

namespace Bytecode

theorem toList_text (b : Bytecode) :
    b.text.toList = (b.words.map fun w => (Word.text w).toList).flatMap (· ++ [' ']) := by
  rw [text, String.toList_join, List.flatMap_map, List.flatMap_map]
  exact congrArg (b.words.flatMap ·) (funext fun w => String.toList_append)

theorem newline_not_mem_text (b : Bytecode) : '\n' ∉ b.text.toList := by
  intro hmem
  rw [toList_text, List.flatMap_map] at hmem
  obtain ⟨w, -, hw⟩ := List.mem_flatMap.1 hmem
  rcases List.mem_append.1 hw with hw | hblank
  · exact absurd (Word.isDigit_of_mem_text hw (by decide)) (by decide)
  · exact absurd (List.mem_singleton.1 hblank) (by decide)

/-- The words are read off the text of the code. -/
theorem words_text (b : Bytecode) : Numeral.words b.text = .ok b.words := by
  have hpieces : ∀ p ∈ b.words.map fun w => (Word.text w).toList, ' ' ∉ p := by
    intro p hp hblank
    obtain ⟨w, -, rfl⟩ := List.mem_map.1 hp
    exact absurd (Word.isDigit_of_mem_text hblank (by decide)) (by decide)
  have hfull : ∀ p ∈ b.words.map fun w => (Word.text w).toList, (!p.isEmpty) = true := by
    intro p hp
    obtain ⟨w, -, rfl⟩ := List.mem_map.1 hp
    simpa using Word.text_ne_nil w
  rw [Numeral.words, toList_text, splitOn_pieces hpieces, List.filter_append,
    List.filter_eq_self.2 hfull]
  exact (congrArg (List.mapM Numeral.word) (List.append_nil _)).trans (Numeral.mapM_word_text b.words)

end Bytecode

namespace Options

variable {o : Options} {program : String} {b : Bytecode}

theorem execute_of_error {e : CompileError} (h : Solo.compile program o.limits.code = .error e)
    (bound : Nat) : o.execute bound program = ⟨"", .failed (.compilation o.source e)⟩ := by
  rw [execute, compile, h]
  rfl

/-- The code is written before anything is run. -/
theorem execute_of_compile (h : Solo.compile program o.limits.code = .ok b) (bound : Nat) :
    (∀ v, run o.limits bound program o.arg = .ok (some v) →
      o.execute bound program = ⟨o.dump b ++ resultLine v, .finished⟩) ∧
    (∀ e, run o.limits bound program o.arg = .error e →
      ∃ f, e = .machine f ∧ o.execute bound program = ⟨o.dump b, .failed (.execution f)⟩) ∧
    (run o.limits bound program o.arg = .ok none →
      o.execute bound program = ⟨o.dump b, .unfinished⟩) := by
  have hcompile : o.compile program = .ok b := by
    rw [compile, h]
    rfl
  simp only [run, execute, h, hcompile]
  cases Machine.run bound o.arg (.load b o.limits) with
  | error f m => simp
  | ok result m => cases result <;> simp

end Options

/-- The command does what a run of the source does, with as many steps. If the source does not compile
it writes nothing and fails over the error. Else its first line is the code, the listing comes next if
it is asked for, and then the result, or nothing more if the run fails, over the same fault. -/
theorem execute_agrees_with_run (o : Options) (program : String) :
    (∀ e, compile program o.limits.code = .error e → ∀ bound,
      o.execute bound program = ⟨"", .failed (.compilation o.source e)⟩ ∧
      (CommandError.compilation o.source e).report =
        "compilation of " ++ o.source ++ " failed" ++ ": " ++ e.message) ∧
    ∀ b, compile program o.limits.code = .ok b → ∃ text code,
      '\n' ∉ text.toList ∧ Numeral.words text = .ok b.words ∧
      code = "VMCode: " ++ text ++ "\n" ++ (if o.disasm then b.listing else "") ∧ ∀ bound,
        (∀ v, run o.limits bound program o.arg = .ok (some v) →
          o.execute bound program = ⟨code ++ ("Result: " ++ Word.text v ++ "\n"), .finished⟩) ∧
        (∀ e, run o.limits bound program o.arg = .error e → ∃ f, e = .machine f ∧
          o.execute bound program = ⟨code, .failed (.execution f)⟩ ∧
          (CommandError.execution f).report = "execution failed" ++ ": " ++ e.message) ∧
        (run o.limits bound program o.arg = .ok none →
          o.execute bound program = ⟨code, .unfinished⟩) := by
  refine ⟨fun e h bound => ⟨Options.execute_of_error h bound, rfl⟩, fun b h => ?_⟩
  refine ⟨b.text, o.dump b, b.newline_not_mem_text, b.words_text, rfl, fun bound => ?_⟩
  obtain ⟨hvalue, hfault, hnone⟩ := Options.execute_of_compile h bound
  refine ⟨hvalue, fun e he => ?_, hnone⟩
  obtain ⟨f, rfl, hexecute⟩ := hfault e he
  exact ⟨f, rfl, hexecute, rfl⟩

/-- A quotient that can be by zero, and an expression that is not closed. -/
theorem execute_agrees_with_run_quotient :
    (∃ text, Numeral.words text = .ok [13, 3, 15, 1, 9, 2, 1, 1, 2, 5, 7, 14, 0] ∧
      Options.execute ⟨"q.mini", -1, false, {}⟩ 50 "f(n) \x7b return 9 / (n - 2); \x7d" =
        ⟨"VMCode: " ++ text ++ "\n" ++ "" ++ ("Result: " ++ Word.text (-3) ++ "\n"), .finished⟩) ∧
    (∃ text, Numeral.words text = .ok [13, 3, 15, 1, 9, 2, 1, 1, 2, 5, 7, 14, 0] ∧
      Options.execute ⟨"q.mini", 2, false, {}⟩ 50 "f(n) \x7b return 9 / (n - 2); \x7d" =
        ⟨"VMCode: " ++ text ++ "\n" ++ "", .failed (.execution ⟨10, .divisionByZero⟩)⟩) ∧
    Options.execute ⟨"q.mini", 2, false, {}⟩ 50 "f(n) \x7b return (9; \x7d" =
      ⟨"", .failed (.compilation "q.mini"
        (.misplaced ⟨1, 17⟩ (.token (.punct .rparen)) (.punct .semicolon)))⟩ := by
  have hwords : (compile "f(n) \x7b return 9 / (n - 2); \x7d" 1000).toOption.map Bytecode.words =
      some [13, 3, 15, 1, 9, 2, 1, 1, 2, 5, 7, 14, 0] := by
    decide +kernel
  have hvalue : (run {} 50 "f(n) \x7b return 9 / (n - 2); \x7d" (-1)).toOption = some (some (-3)) := by
    decide +kernel
  have hfault : failure? (run {} 50 "f(n) \x7b return 9 / (n - 2); \x7d" 2) =
      some (.machine ⟨10, .divisionByZero⟩) := by
    decide +kernel
  have hmisplaced : failure? (compile "f(n) \x7b return (9; \x7d" 1000) =
      some (.misplaced ⟨1, 17⟩ (.token (.punct .rparen)) (.punct .semicolon)) := by
    decide +kernel
  obtain ⟨b, hb, hwords⟩ := Option.map_eq_some_iff.1 hwords
  refine ⟨?_, ?_, ?_⟩
  · obtain ⟨-, hok⟩ := execute_agrees_with_run ⟨"q.mini", -1, false, {}⟩
      "f(n) \x7b return 9 / (n - 2); \x7d"
    obtain ⟨text, code, -, hread, rfl, hends⟩ := hok b (eq_ok_of_toOption hb)
    exact ⟨text, hwords ▸ hread, (hends 50).1 (-3) (eq_ok_of_toOption hvalue)⟩
  · obtain ⟨-, hok⟩ := execute_agrees_with_run ⟨"q.mini", 2, false, {}⟩
      "f(n) \x7b return 9 / (n - 2); \x7d"
    obtain ⟨text, code, -, hread, rfl, hends⟩ := hok b (eq_ok_of_toOption hb)
    obtain ⟨f, hf, hexecute, -⟩ := (hends 50).2.1 _ (eq_error_of_failure? hfault)
    obtain rfl := Failure.machine.inj hf
    exact ⟨text, hwords ▸ hread, hexecute⟩
  · obtain ⟨herror, -⟩ := execute_agrees_with_run ⟨"q.mini", 2, false, {}⟩
      "f(n) \x7b return (9; \x7d"
    exact (herror _ (eq_error_of_failure? hmisplaced) 50).1

end Solo
