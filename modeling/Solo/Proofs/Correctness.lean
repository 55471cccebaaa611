import Solo.Proofs.Simulation
import Solo.Session

/-! A compiled program gives what its tree means. A run ends just when evaluation does, with the same
value or for the same reason; so a program that runs forever is one whose evaluation no fuel is enough
for. -/

namespace Solo

open Bytecode (bodyAddr)
open Machine Grammar

/-- What a run shows of an evaluation that has ended. -/
inductive RunShows (capacity : Nat) : Except Abort Word → Except Failure (Option Word) → Prop where
  | value (v : Word) : RunShows capacity (.ok v) (.ok (some v))
  | abort (a : Abort) (ip : Nat) :
      RunShows capacity (.error a) (.error (.machine ⟨ip, a.cause capacity⟩))

theorem Grammar.Abort.cause_inj {capacity : Nat} {a a' : Abort} :
    a.cause capacity = a'.cause capacity → a = a' := by
  cases a <;> cases a' <;> simp [cause]

namespace RunShows

variable {capacity : Nat} {r : Except Abort Word} {result : Except Failure (Option Word)}

theorem ne_none (h : RunShows capacity r result) : result ≠ .ok none := by
  rintro rfl
  cases h

theorem result_value {v : Word} (h : RunShows capacity (.ok v) result) : result = .ok (some v) := by
  cases h
  rfl

theorem result_abort {a : Abort} (h : RunShows capacity (.error a) result) :
    ∃ ip, result = .error (.machine ⟨ip, a.cause capacity⟩) := by
  cases h
  exact ⟨_, rfl⟩

theorem result_error {failure : Failure} (h : RunShows capacity r (.error failure)) :
    ∃ (a : Abort) (ip : Nat), failure = .machine ⟨ip, a.cause capacity⟩ := by
  cases h
  exact ⟨_, _, rfl⟩

theorem eq_value {v : Word} (h : RunShows capacity r (.ok (some v))) : r = .ok v := by
  cases h
  rfl

theorem eq_abort {a : Abort} {ip : Nat}
    (h : RunShows capacity r (.error (.machine ⟨ip, a.cause capacity⟩))) : r = .error a := by
  generalize hresult : Except.error (Failure.machine ⟨ip, a.cause capacity⟩) = result at h
  cases h with
  | value v => cases hresult
  | abort a' ip' =>
    rw [Abort.cause_inj (congrArg Fault.cause (Failure.machine.inj (Except.error.inj hresult)))]

end RunShows

namespace Machine

/-- What a run gives when it knows whether the machine has halted. -/
def result (halted : Bool) : Action (Option Word) := do
  if halted then
    let value ← read 0
    return some value
  else
    return none

def started (m : Machine) (arg : Word) : Machine := m.placed 0 1 0 (Stack.empty.set 0 arg)

theorem run_eq_result {m : Machine} (hrunning : m.halted = false) (hroom : 0 < m.capacity)
    (bound : Nat) (arg : Word) : run bound arg m = (runFor bound >>= result) (m.started arg) := by
  have hreset := reset_eq (m := m) arg
  rw [if_pos hroom, ← hrunning] at hreset
  exact bind_of_ok hreset

theorem run_noRoom {m : Machine} (hroom : ¬0 < m.capacity) (bound : Nat) (arg : Word) :
    ∃ m', run bound arg m = .error ⟨0, .stackOverflow m.capacity⟩ m' :=
  ⟨_, bind_of_error ((reset_eq arg).trans (if_neg hroom))⟩

end Machine

theorem Grammar.Setting.eval_of_room {s : Setting} (hroom : 0 < s.capacity) (fuel : Nat) (arg : Word) :
    s.eval fuel arg = s.call fuel arg 1 := by
  rw [Setting.eval, Setting.occupy, if_pos (Nat.succ_le_of_lt hroom)]
  rfl

theorem Grammar.Setting.eval_noRoom {s : Setting} (hroom : ¬0 < s.capacity) (fuel : Nat) (arg : Word) :
    s.eval fuel arg = throw .stackOverflow := by
  rw [Setting.eval, Setting.occupy, if_neg (show ¬1 ≤ s.capacity from hroom)]
  rfl

/-- What a run of a source says of a run of the machine. -/
def report : EStateM.Result Fault Machine (Option Word) → Except Failure (Option Word)
  | .ok value _ => .ok value
  | .error fault _ => .error (.machine fault)

section

variable {source : String} {limits : Limits} {b : Bytecode} {s : Setting} {slot : String → Nat}
  {m : Machine} {arg : Word}

theorem run_of_compile (hcompile : compile source limits.code = .ok b) (bound : Nat) :
    run limits bound source arg = report (Machine.run bound arg (.load b limits)) := by
  rw [run, hcompile]
  rfl

/-- The machine follows the call at which a run starts, and then stops. -/
theorem Carries.follows_run (h : Carries s slot b m) (arg : Word) {n bound : Nat}
    (hbudget : Budget s bound 0 n) :
    Follows s bound (m.started arg) (s.call n arg 1) fun v m' =>
      m'.halted = true ∧ read 0 m' = .ok v m' := by
  have hcall : Machine.step (m.started arg) = execute (.call bodyAddr) 2 (m.started arg) :=
    step_of_fetch (h.wellFormed.fetch_start (m := m.started arg) h.holds.code rfl)
  have harg : (Stack.empty.set 0 arg).get 0 = arg := (Stack.get_set _ _ _ _).trans (if_pos rfl)
  refine ((h.simulates n).call hbudget hcall (by decide) harg (Nat.zero_le _)).finish ?_
  rintro v _ ⟨stack, rfl, hroom, -, hv⟩
  have hfetch := h.wellFormed.fetch_stop (m := m.placed 2 1 0 stack) h.holds.code rfl
  refine .step h.running (step_of_fetch hfetch) (.pure ⟨rfl, ?_⟩)
  rw [← hv]
  exact read_eq hroom

/-- An evaluation that ends is shown by a run. -/
theorem shows_of_eval (hcompile : compile source limits.code = .ok b)
    (h : Carries s slot b (.load b limits)) {fuel : Nat} {r : Except Abort Word}
    (heval : s.eval fuel arg = ExceptT.mk (some r)) :
    ∃ bound, RunShows limits.stack r (run limits bound source arg) := by
  have hcapacity : s.capacity = limits.stack := h.capacity
  by_cases hroom : 0 < limits.stack
  · have hfollows := h.follows_run (n := fuel) arg (.inl rfl)
    rw [← Setting.eval_of_room (hcapacity ▸ hroom), heval] at hfollows
    cases r with
    | ok v =>
      obtain ⟨k, m', hsteps, hhalted, hread⟩ := hfollows
      have hrun : runFor k ((Machine.load b limits).started arg) = .ok true m' :=
        (hsteps.runFor_add 0).trans (congrArg (EStateM.Result.ok · m') hhalted)
      have hresult : result true m' = .ok (some v) m' := bind_of_ok hread
      refine ⟨k, ?_⟩
      rw [run_of_compile hcompile, run_eq_result rfl hroom, bind_of_ok hrun, hresult]
      exact .value v
    | error a =>
      obtain ⟨k, m', hsteps, hrunning, ⟨ip, cause⟩, m'', hstep, rfl⟩ := hfollows
      have hrun : runFor (k + 1) ((Machine.load b limits).started arg) =
          .error ⟨ip, a.cause s.capacity⟩ m'' := by
        rw [hsteps.runFor_add, runFor_succ hrunning, hstep]
      refine ⟨k + 1, ?_⟩
      rw [run_of_compile hcompile, run_eq_result rfl hroom, bind_of_error hrun, hcapacity]
      exact .abort a ip
  · rw [Setting.eval_noRoom (hcapacity ▸ hroom)] at heval
    obtain rfl : Except.error .stackOverflow = r := Option.some.inj heval
    obtain ⟨m', hrun⟩ := run_noRoom (m := .load b limits) hroom 0 arg
    refine ⟨0, ?_⟩
    rw [run_of_compile hcompile, hrun]
    exact .abort .stackOverflow 0

/-- Evaluation ends if a run does. -/
theorem eval_of_run (hcompile : compile source limits.code = .ok b)
    (h : Carries s slot b (.load b limits)) {bound : Nat}
    (hrun : run limits bound source arg ≠ .ok none) :
    ∃ fuel r, s.eval fuel arg = ExceptT.mk (some r) := by
  have hcapacity : s.capacity = limits.stack := h.capacity
  by_cases hroom : 0 < limits.stack
  · refine ⟨(bound + 1) * (sizeOf s.program.body + 1), ?_⟩
    have hfollows := h.follows_run arg (.inr (Nat.le_refl ((bound + 1) * _)))
    rw [Setting.eval_of_room (hcapacity ▸ hroom)]
    match hr : s.call ((bound + 1) * (sizeOf s.program.body + 1)) arg 1 with
    | some r => exact ⟨r, rfl⟩
    | none =>
      rw [hr] at hfollows
      obtain ⟨k, m', hk, hsteps⟩ := hfollows
      obtain ⟨m₁, hfalse⟩ := hsteps.runFor_lt (Nat.lt_of_succ_le hk)
      refine absurd ?_ hrun
      rw [run_of_compile hcompile, run_eq_result rfl hroom, bind_of_ok hfalse]
      rfl
  · exact ⟨0, _, Setting.eval_noRoom (hcapacity ▸ hroom) 0 arg⟩

theorem run_mono (hcompile : compile source limits.code = .ok b) {bound k : Nat} (hle : bound ≤ k)
    (hrun : run limits bound source arg ≠ .ok none) :
    run limits k source arg = run limits bound source arg := by
  by_cases hroom : 0 < limits.stack
  · have hended : ∀ m', runFor bound ((Machine.load b limits).started arg) ≠ .ok false m' := by
      intro m' hfalse
      refine hrun ?_
      rw [run_of_compile hcompile, run_eq_result rfl hroom, bind_of_ok hfalse]
      rfl
    rw [run_of_compile hcompile, run_of_compile hcompile, run_eq_result rfl hroom,
      run_eq_result rfl hroom, bind_congr (runFor_mono hle hended)]
  · obtain ⟨m₁, hk⟩ := run_noRoom (m := .load b limits) hroom k arg
    obtain ⟨m₂, hbound⟩ := run_noRoom (m := .load b limits) hroom bound arg
    rw [run_of_compile hcompile, run_of_compile hcompile, hk, hbound]
    rfl

/-- A run that ends shows an evaluation. -/
theorem shows_of_run (hcompile : compile source limits.code = .ok b)
    (h : Carries s slot b (.load b limits)) {bound : Nat}
    (hrun : run limits bound source arg ≠ .ok none) : ∃ fuel r,
      s.eval fuel arg = ExceptT.mk (some r) ∧ RunShows limits.stack r (run limits bound source arg) := by
  obtain ⟨fuel, r, heval⟩ := eval_of_run hcompile h hrun
  obtain ⟨k, hshows⟩ := shows_of_eval hcompile h heval
  have hsame : run limits k source arg = run limits bound source arg := by
    rcases Nat.le_total bound k with hle | hle
    · exact run_mono hcompile hle hrun
    · exact (run_mono hcompile hle hshows.ne_none).symm
  exact ⟨fuel, r, heval, hsame ▸ hshows⟩

end

/-- The setting in which the tree of a source is evaluated: each name in its tokens is a variable. -/
def Limits.setting (limits : Limits) (ts : List Token) (p : Program) : Setting :=
  ⟨p, (distinctNames ts).length, limits.stack⟩

theorem carries_of_compile {source : String} {limits : Limits} {b : Bytecode} {ts : List Token}
    {symbols : SymbolTable} {p : Program} (hcode : limits.code ≤ Word.sizeLimit)
    (hstack : limits.stack ≤ Word.sizeLimit) (hcompile : compile source limits.code = .ok b)
    (hlexes : (Scanner.ofSource source).Lexes ts symbols) (hp : p.tokens (slotIn ts) = ts) :
    Carries (limits.setting ts p) (slotIn ts) b (.load b limits) := by
  have hb := wellFormed_of_compile hcompile hcode hlexes hp
  obtain rfl := eq_of_compile hcompile hlexes hp
  refine ⟨⟨rfl, rfl, rfl, hstack⟩, rfl, hb, ?_, rfl, rfl, ?_, ?_⟩
  · rw [Limits.setting, ← hlexes.slotIn.1, Array.length_toList]
    rfl
  · exact fun x y hx heq => slotIn_inj heq hx
  · intro t (ht : t ∈ p.body.tokens (slotIn ts)) x hx
    refine slotIn_lt ?_ hx
    rw [← congrArg (t ∈ ·) hp]
    simp [Program.tokens, inBraces, ht]

/-- Compiled programs do what their trees mean. -/
theorem run_agrees_with_eval {source : String} {limits : Limits} {b : Bytecode}
    (hcode : limits.code ≤ Word.sizeLimit) (hstack : limits.stack ≤ Word.sizeLimit)
    (hcompile : compile source limits.code = .ok b) :
    ∃ ts symbols, (Scanner.ofSource source).Lexes ts symbols ∧ Sentence (slotIn ts) ts ∧
      ∀ p : Program, p.tokens (slotIn ts) = ts → ∀ arg : Word,
        (∀ v, (∃ bound, run limits bound source arg = .ok (some v)) ↔
          ∃ fuel, (limits.setting ts p).eval fuel arg = pure v) ∧
        (∀ a : Abort, (∃ bound ip,
            run limits bound source arg = .error (.machine ⟨ip, a.cause limits.stack⟩)) ↔
          ∃ fuel, (limits.setting ts p).eval fuel arg = throw a) ∧
        ((∀ bound, run limits bound source arg = .ok none) ↔
          ∀ fuel, (limits.setting ts p).eval fuel arg = outOfFuel) ∧
        ∀ bound failure, run limits bound source arg = .error failure →
          ∃ (a : Abort) (ip : Nat), failure = .machine ⟨ip, a.cause limits.stack⟩ := by
  obtain ⟨ts, symbols, hlexes, hderives⟩ := derives_of_compile hcompile
  refine ⟨ts, symbols, hlexes, (sentence_iff_derives hlexes).2 hderives, fun p hp arg => ?_⟩
  have h := carries_of_compile hcode hstack hcompile hlexes hp
  refine ⟨fun v => ⟨?_, ?_⟩, fun a => ⟨?_, ?_⟩, ⟨?_, ?_⟩, ?_⟩
  · rintro ⟨bound, hrun⟩
    have hended : run limits bound source arg ≠ .ok none := by rw [hrun]; nofun
    obtain ⟨fuel, r, heval, hshows⟩ := shows_of_run hcompile h hended
    rw [hrun] at hshows
    rw [hshows.eq_value] at heval
    exact ⟨fuel, heval⟩
  · rintro ⟨fuel, heval⟩
    obtain ⟨bound, hshows⟩ := shows_of_eval hcompile h heval
    exact ⟨bound, hshows.result_value⟩
  · rintro ⟨bound, ip, hrun⟩
    have hended : run limits bound source arg ≠ .ok none := by rw [hrun]; nofun
    obtain ⟨fuel, r, heval, hshows⟩ := shows_of_run hcompile h hended
    rw [hrun] at hshows
    rw [hshows.eq_abort] at heval
    exact ⟨fuel, heval⟩
  · rintro ⟨fuel, heval⟩
    obtain ⟨bound, hshows⟩ := shows_of_eval hcompile h heval
    exact ⟨bound, hshows.result_abort⟩
  · intro hforever fuel
    match heval : (limits.setting ts p).eval fuel arg with
    | none => rfl
    | some r =>
      obtain ⟨bound, hshows⟩ := shows_of_eval hcompile h heval
      exact absurd (hforever bound) hshows.ne_none
  · intro hforever bound
    refine Classical.byContradiction fun hended => ?_
    obtain ⟨fuel, r, heval, -⟩ := shows_of_run hcompile h hended
    rw [hforever fuel] at heval
    cases heval
  · intro bound failure hrun
    have hended : run limits bound source arg ≠ .ok none := by rw [hrun]; nofun
    obtain ⟨fuel, r, -, hshows⟩ := shows_of_run hcompile h hended
    rw [hrun] at hshows
    exact hshows.result_error

theorem run_agrees_with_eval_factorial : ∃ ts symbols,
    (Scanner.ofSource
      "f(n) \x7b if (n > 0) return n * f(n - 1); else return 1; \x7d").Lexes ts symbols ∧
      Sentence (slotIn ts) ts ∧ ∀ p : Program, p.tokens (slotIn ts) = ts →
        ∃ fuel, (Limits.setting ⟨64, 64⟩ ts p).eval fuel 5 = pure 120 := by
  obtain ⟨b, hb⟩ := Option.isSome_iff_exists.1 (show (compile
    "f(n) \x7b if (n > 0) return n * f(n - 1); else return 1; \x7d" 64).toOption.isSome = true
    by decide +kernel)
  have hrun : (run ⟨64, 64⟩ 200
      "f(n) \x7b if (n > 0) return n * f(n - 1); else return 1; \x7d" 5).toOption =
        some (some 120) := by
    decide +kernel
  obtain ⟨ts, symbols, hlexes, hsentence, h⟩ := run_agrees_with_eval
    (show (⟨64, 64⟩ : Limits).code ≤ Word.sizeLimit by decide) (by decide) (eq_ok_of_toOption hb)
  refine ⟨ts, symbols, hlexes, hsentence, fun p hp => ?_⟩
  exact ((h p hp 5).1 120).1 ⟨200, eq_ok_of_toOption hrun⟩

end Solo
