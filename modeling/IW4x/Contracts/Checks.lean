import IW4x.Lib.Scopes

/-!
# Contract checks

What a build makes of the checks that functions are written with, at each checking level. Below the
audit level a postcondition or an invariant is nothing; without checking a precondition is nothing
and an assertion is something that the optimizer may rely on.

A postcondition is checked by an object that counts the exceptions on their way when it is made and
when it is destroyed. `expand` has these objects, as the macros write them; `meaning` says when a check
is made, without them.
-/

namespace IW4x.Contracts

open Scopes

abbrev Text := List Char

/-- `LIBIW4X_CONTRACT`. -/
inductive Level where
  | off
  | default
  | audit
  deriving DecidableEq, Repr

def Level.value : Level → ℕ
  | .off => 0
  | .default => 1
  | .audit => 2

/-- `contract_kind`. -/
inductive Kind where
  | precondition
  | postcondition
  | invariant
  | assertion
  | unreachable
  deriving DecidableEq, Repr

def contractKindName : Kind → Text
  | .precondition => "precondition".toList
  | .postcondition => "postcondition".toList
  | .invariant => "invariant".toList
  | .assertion => "assertion".toList
  | .unreachable => "unreachable".toList

/-- `contract_violation`. -/
structure Violation where
  file : Option Text
  function : Option Text
  expression : Option Text
  message : Option Text
  line : ℕ
  kind : Kind
  deriving DecidableEq

/-- The loop of `file_name`, with the name so far. -/
def fileNameFrom (r : Text) : Text → Text
  | [] => r
  | c :: i => fileNameFrom (if c = '/' ∨ c = '\\' then i else r) i

def fileName : Option Text → Text
  | none => "<unknown>".toList
  | some p => fileNameFrom p p

/-- `report`: the lines that are printed. -/
def report (v : Violation) : List Text :=
  let fn := v.function.getD "<unknown>".toList
  let e := v.expression.getD "<unknown>".toList
  let line (text : Text) : Text :=
    fileName v.file ++ ":".toList ++ (toString v.line).toList ++ ": ".toList ++ text ++ "\n".toList
  let first := match v.kind with
    | .assertion => "error: assertion failed: ".toList ++ e
    | .unreachable => "error: control reached unreachable code".toList
    | k => "error: ".toList ++ contractKindName k ++ " violated: ".toList ++ e
  let message := v.message.map fun m => line ("note: ".toList ++ m)
  line first :: line ("note: in '".toList ++ fn ++ "'".toList) :: message.toList

/-- What a violation makes known. -/
inductive Notice where
  /-- The installed handler was called. -/
  | handled (v : Violation)
  /-- It was reported by default. -/
  | reported (lines : List Text)
  deriving DecidableEq

inductive Thrown (ε : Type) where
  | code (e : ε)
  | violation (v : Violation)
  deriving DecidableEq

/-- A handler that throws, or returns. -/
abbrev Handler := Violation → Bool

/-- Where a check stands, as the macros see it. -/
structure Site where
  file : Text
  function : Text
  expression : Text
  line : ℕ
  deriving DecidableEq

def Site.violation (v : Site) (kind : Kind) (message : Option Text) : Violation :=
  ⟨some v.file, some v.function, some v.expression, message, v.line, kind⟩

/-- The expression of `LIBIW4X_UNREACHABLE`. -/
def Site.reached (v : Site) : Site := { v with expression := "control reached this point".toList }

/-- A function with its checks. The expressions of the checks have no effects. -/
inductive Checked (σ ε : Type) where
  | act (f : σ → σ × Option ε)
  | seq (c d : Checked σ ε)
  | branch (p : σ → Bool) (c d : Checked σ ε)
  /-- A loop, with a bound on its rounds. -/
  | loop (rounds : σ → ℕ) (p : σ → Bool) (c : Checked σ ε)
  /-- `LIBIW4X_PRE` and `LIBIW4X_PRE_MSG`. -/
  | pre (v : Site) (message : Option Text) (e : σ → Bool)
  /-- `LIBIW4X_ASSERT` and `LIBIW4X_ASSERT_MSG`. -/
  | assertion (v : Site) (message : Option Text) (e : σ → Bool)
  | unreachable (v : Site)
  /-- `LIBIW4X_POST`, and the rest of its scope. -/
  | post (v : Site) (e : σ → Bool) (rest : Checked σ ε)
  /-- `LIBIW4X_INVARIANT`, and the rest of its scope. -/
  | invariant (v : Site) (e : σ → Bool) (rest : Checked σ ε)
  /-- Another object with a destructor, and the rest of its scope. -/
  | object (destructor rest : Checked σ ε)
  /-- `noexcept`. -/
  | sealing (c : Checked σ ε)
  /-- `try` with `catch (...)`. -/
  | attempt (c handler : Checked σ ε)

variable {σ ε : Type}

section Expansion

-- `current_handler` is part of the state.
variable (current : σ → Option Handler)

def contractFail (v : Violation) : Cmd σ (Thrown ε) Notice :=
  let finish : Cmd σ (Thrown ε) Notice := .seq (.say (.reported (report v))) (.stop .aborted)
  .ask fun s =>
    match current s with
    | none => finish
    | some h => .seq (.say (.handled v)) (if h v then .throw (.violation v) else finish)

/-- `LIBIW4X_CONTRACT_CHECK_`. -/
def contractCheck (v : Violation) (e : σ → Bool) : Cmd σ (Thrown ε) Notice :=
  .ask fun s => if e s then .skip else contractFail current v

/-- `LIBIW4X_CONTRACT_ASSUME_`. -/
def contractAssume (e : σ → Bool) : Cmd σ (Thrown ε) Notice :=
  .ask fun s => if e s then .skip else .stop .undefined

def postconditionGuard (v : Site) (e : σ → Bool) (rest : Cmd σ (Thrown ε) Notice) :
    Cmd σ (Thrown ε) Notice :=
  .onNormalExit (contractCheck current (v.violation .postcondition none) e) rest

def invariantGuard (v : Site) (e : σ → Bool) (rest : Cmd σ (Thrown ε) Notice) :
    Cmd σ (Thrown ε) Notice :=
  .seq (contractCheck current (v.violation .invariant (some "on entry".toList)) e)
    (.onNormalExit (contractCheck current (v.violation .invariant (some "on exit".toList)) e) rest)

/-- The function as it is built at a level. -/
def expand (l : Level) : Checked σ ε → Cmd σ (Thrown ε) Notice
  | .act f => .act fun s => ((f s).1, (f s).2.map .code)
  | .seq c d => .seq (expand l c) (expand l d)
  | .branch p c d => .ask fun s => if p s then expand l c else expand l d
  | .loop rounds p c =>
    .ask fun s => (Cmd.ask fun s => if p s then expand l c else .skip).times (rounds s)
  | .pre v m e =>
    if 1 ≤ l.value then contractCheck current (v.violation .precondition m) e else .skip
  | .assertion v m e =>
    if 1 ≤ l.value then contractCheck current (v.violation .assertion m) e else contractAssume e
  | .unreachable v =>
    if 1 ≤ l.value then contractFail current (v.reached.violation .unreachable none)
    else .stop .undefined
  | .post v e c =>
    if 2 ≤ l.value then postconditionGuard current v e (expand l c) else expand l c
  | .invariant v e c =>
    if 2 ≤ l.value then invariantGuard current v e (expand l c) else expand l c
  | .object d c => .object false (expand l d) (expand l c)
  | .sealing c => .sealing (expand l c)
  | .attempt c h => .attempt (expand l c) fun _ => expand l h

/-! ## When a check is made -/

def failing (v : Violation) (s : σ) : Result σ (Thrown ε) Notice :=
  match current s with
  | none => ⟨.ended .aborted, [.reported (report v)]⟩
  | some h =>
    if h v then ⟨.thrown s (.violation v), [.handled v]⟩
    else ⟨.ended .aborted, [.handled v, .reported (report v)]⟩

def checking (v : Violation) (e : σ → Bool) (s : σ) : Result σ (Thrown ε) Notice :=
  if e s then .normal s else failing current v s

def rounds (body : σ → Result σ (Thrown ε) Notice) (p : σ → Bool) :
    ℕ → σ → Result σ (Thrown ε) Notice
  | 0, s => .normal s
  | n + 1, s => (if p s then body s else .normal s).follow (rounds body p n) .thrown

/-- What a function comes to at a level: a postcondition is checked where its scope is left normally,
and an invariant there and where it is entered. -/
def meaning (l : Level) : Checked σ ε → σ → Result σ (Thrown ε) Notice
  | .act f, s =>
    match f s with
    | (s, none) => .normal s
    | (s, some e) => .thrown s (.code e)
  | .seq c d, s => (meaning l c s).follow (meaning l d) .thrown
  | .branch p c d, s => if p s then meaning l c s else meaning l d s
  | .loop n p c, s => rounds (meaning l c) p (n s) s
  | .pre v m e, s =>
    if 1 ≤ l.value then checking current (v.violation .precondition m) e s else .normal s
  | .assertion v m e, s =>
    if 1 ≤ l.value then checking current (v.violation .assertion m) e s
    else if e s then .normal s else .ended .undefined
  | .unreachable v, s =>
    if 1 ≤ l.value then failing current (v.reached.violation .unreachable none) s
    else .ended .undefined
  | .post v e c, s =>
    if 2 ≤ l.value then
      (meaning l c s).follow (checking current (v.violation .postcondition none) e) .thrown
    else meaning l c s
  | .invariant v e c, s =>
    if 2 ≤ l.value then
      (checking current (v.violation .invariant (some "on entry".toList)) e s).follow
        (fun s => (meaning l c s).follow
          (checking current (v.violation .invariant (some "on exit".toList)) e) .thrown) .thrown
    else meaning l c s
  | .object d c, s =>
    (meaning l c s).follow (fun s => (meaning l d s).confine)
      fun s e => (meaning l d s).confine.follow (fun s => .thrown s e) .thrown
  | .sealing c, s => (meaning l c s).confine
  | .attempt c h, s => (meaning l c s).follow .normal fun s _ => meaning l h s

theorem exec_contractFail (v : Violation) (u : ℕ) (s : σ) :
    (contractFail current v : Cmd σ (Thrown ε) Notice).exec u s = failing current v s := by
  simp only [contractFail, failing, Cmd.exec]
  cases current s with
  | none => rfl
  | some h => cases hthrows : h v <;> simp [hthrows, Cmd.exec, Result.follow, Result.after,
      Result.thrown, Result.ended]

theorem exec_contractCheck (v : Violation) (e : σ → Bool) (u : ℕ) :
    (contractCheck current v e : Cmd σ (Thrown ε) Notice).exec u = checking current v e := by
  funext s
  simp only [contractCheck, checking, Cmd.exec]
  split_ifs
  · rfl
  · exact exec_contractFail current v u s

theorem exec_times (c : Cmd σ (Thrown ε) Notice) (body : σ → Result σ (Thrown ε) Notice)
    (p : σ → Bool) (u : ℕ) (h : ∀ s, c.exec u s = body s) (n : ℕ) (s : σ) :
    ((Cmd.ask fun s => if p s then c else .skip).times n).exec u s = rounds body p n s := by
  induction n generalizing s with
  | zero => rfl
  | succ n ih =>
    simp only [Cmd.times, Cmd.exec, rounds]
    have hbody : (if p s then c else Cmd.skip).exec u s =
        if p s then body s else Result.normal s := by
      split_ifs
      · exact h s
      · rfl
    rw [hbody]
    exact Result.follow_congr (fun t _ => ih t) fun _ _ _ => rfl

/-- What is built makes the checks where they belong, however many exceptions are on their way when the
function is called. -/
theorem expand_meaning (l : Level) (c : Checked σ ε) (u : ℕ) (s : σ) :
    (expand current l c).exec u s = meaning current l c s := by
  induction c generalizing u s with
  | act f =>
    simp only [expand, Cmd.exec, meaning]
    obtain ⟨t, e⟩ := f s
    cases e <;> rfl
  | seq c d ihc ihd =>
    simp only [expand, Cmd.exec, meaning, ihc]
    exact Result.follow_congr (fun t _ => ihd u t) fun _ _ _ => rfl
  | branch p c d ihc ihd =>
    simp only [expand, Cmd.exec, meaning]
    split_ifs
    · exact ihc u s
    · exact ihd u s
  | loop n p c ih => exact exec_times _ _ _ _ (ih u) _ _
  | pre v m e =>
    simp only [expand, meaning]
    split_ifs
    · rw [exec_contractCheck]
    · rfl
  | assertion v m e =>
    simp only [expand, meaning]
    split_ifs with hlevel he
    · rw [exec_contractCheck]
    · simp [contractAssume, Cmd.exec, he]
    · simp [contractAssume, Cmd.exec, he]
  | unreachable v =>
    simp only [expand, meaning]
    split_ifs
    · exact exec_contractFail current _ u s
    · rfl
  | post v e c ih =>
    simp only [expand, meaning]
    split_ifs
    · rw [postconditionGuard, Cmd.exec_onNormalExit, ih, exec_contractCheck]
    · exact ih u s
  | invariant v e c ih =>
    simp only [expand, meaning]
    split_ifs
    · simp only [invariantGuard, Cmd.exec, exec_contractCheck]
      refine Result.follow_congr (fun t _ => ?_) fun _ _ _ => rfl
      rw [Cmd.exec_onNormalExit, ih, exec_contractCheck]
    · exact ih u s
  | object d c ihd ihc =>
    simp only [expand, Cmd.exec, meaning, ihc]
    apply Result.follow_congr
    · intro t _
      simp [ihd]
    · intro t e _
      rw [ihd]
  | sealing c ih => simp only [expand, Cmd.exec, meaning, ih]
  | attempt c h ihc ihh =>
    simp only [expand, Cmd.exec, meaning, ihc]
    exact Result.follow_congr (fun _ _ => rfl) fun t _ _ => ihh u t

end Expansion

end IW4x.Contracts
