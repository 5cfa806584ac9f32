import Mathlib.Tactic

/-!
# Scopes that are left by exceptions

A command works on a state, may throw, may end the process, and may say something. An object of a
scope is destroyed when the scope is left, normally or by an exception. A command can ask how many
exceptions are on their way: a destructor that runs while one passes finds one more than there were
when its object was made.

A triple says of a command that, where `P` holds, it ends normally with `Q` or throws with `E`, that
it does not end the process, and what it may say.
-/

namespace Scopes

/-- How a process ends. -/
inductive Ending where
  | aborted
  | terminated
  /-- It goes on in a way that nothing is known of. -/
  | undefined
  deriving DecidableEq, Repr

inductive Outcome (σ ε : Type) where
  | normal (s : σ)
  | thrown (s : σ) (e : ε)
  | ended (e : Ending)
  deriving DecidableEq

/-- What a command comes to, and what it said on the way. -/
structure Result (σ ε ω : Type) where
  outcome : Outcome σ ε
  said : List ω
  deriving DecidableEq

inductive Cmd (σ ε ω : Type) where
  | skip
  /-- Code that changes the state, and may throw. -/
  | act (f : σ → σ × Option ε)
  | seq (c d : Cmd σ ε ω)
  /-- What comes next depends on the state. -/
  | ask (k : σ → Cmd σ ε ω)
  /-- What comes next depends on the number of exceptions on their way. -/
  | uncaught (k : ℕ → Cmd σ ε ω)
  /-- An object with its destructor, and the rest of its scope. -/
  | object (mayThrow : Bool) (destructor rest : Cmd σ ε ω)
  /-- No exception may leave. -/
  | sealing (c : Cmd σ ε ω)
  | attempt (c : Cmd σ ε ω) (handler : ε → Cmd σ ε ω)
  | say (w : ω)
  | throw (e : ε)
  | stop (e : Ending)

variable {σ ε ω : Type}

namespace Result

def normal (s : σ) : Result σ ε ω := ⟨.normal s, []⟩

def thrown (s : σ) (e : ε) : Result σ ε ω := ⟨.thrown s e, []⟩

def ended (e : Ending) : Result σ ε ω := ⟨.ended e, []⟩

def after (before : List ω) (r : Result σ ε ω) : Result σ ε ω := ⟨r.outcome, before ++ r.said⟩

/-- Go on, unless the process has ended. -/
def follow (r : Result σ ε ω) (onNormal : σ → Result σ ε ω) (onThrown : σ → ε → Result σ ε ω) :
    Result σ ε ω :=
  match r.outcome with
  | .normal s => (onNormal s).after r.said
  | .thrown s e => (onThrown s e).after r.said
  | .ended _ => r

/-- An exception that leaves ends the process. -/
def confine (r : Result σ ε ω) : Result σ ε ω := r.follow normal fun _ _ => ended .terminated

/-- What is collected after it, unless the process has ended. -/
def onward {α : Type} (r : Result σ ε ω) (onNormal : σ → List α) (onThrown : σ → ε → List α) :
    List α :=
  match r.outcome with
  | .normal s => onNormal s
  | .thrown s e => onThrown s e
  | .ended _ => []

@[simp] theorem onward_nil {α : Type} (r : Result σ ε ω) :
    r.onward (fun _ => ([] : List α)) (fun _ _ => []) = [] := by
  obtain ⟨o, said⟩ := r
  cases o <;> rfl

@[simp] theorem after_nil (r : Result σ ε ω) : r.after [] = r := rfl

@[simp] theorem after_outcome (before : List ω) (r : Result σ ε ω) :
    (r.after before).outcome = r.outcome := rfl

@[simp] theorem after_said (before : List ω) (r : Result σ ε ω) :
    (r.after before).said = before ++ r.said := rfl

@[simp] theorem normal_follow (s : σ) (f : σ → Result σ ε ω) (g : σ → ε → Result σ ε ω) :
    (normal s).follow f g = f s := rfl

@[simp] theorem thrown_follow (s : σ) (e : ε) (f : σ → Result σ ε ω) (g : σ → ε → Result σ ε ω) :
    (thrown s e).follow f g = g s e := rfl

@[simp] theorem follow_pure (r : Result σ ε ω) : r.follow normal thrown = r := by
  obtain ⟨o, said⟩ := r
  cases o <;> simp [follow, normal, thrown, after]

theorem follow_said_nil {r : Result σ ε ω} {f : σ → Result σ ε ω} {g : σ → ε → Result σ ε ω} :
    (r.follow f g).said = [] ↔ r.said = [] ∧
      (∀ s, r.outcome = .normal s → (f s).said = []) ∧
      ∀ s e, r.outcome = .thrown s e → (g s e).said = [] := by
  obtain ⟨o, said⟩ := r
  cases o <;> simp [follow, after]

theorem follow_congr {r : Result σ ε ω} {f f' : σ → Result σ ε ω} {g g' : σ → ε → Result σ ε ω}
    (normal : ∀ s, r.outcome = .normal s → f s = f' s)
    (thrown : ∀ s e, r.outcome = .thrown s e → g s e = g' s e) : r.follow f g = r.follow f' g' := by
  obtain ⟨o, said⟩ := r
  cases o with
  | normal s => simp only [follow, normal s rfl]
  | thrown s e => simp only [follow, thrown s e rfl]
  | ended e => rfl

end Result

namespace Cmd

/-- What a command comes to where so many exceptions are on their way. -/
def exec : Cmd σ ε ω → ℕ → σ → Result σ ε ω
  | .skip, _, s => .normal s
  | .act f, _, s =>
    match f s with
    | (s, none) => .normal s
    | (s, some e) => .thrown s e
  | .seq c d, u, s => (c.exec u s).follow (d.exec u) .thrown
  | .ask k, u, s => (k s).exec u s
  | .uncaught k, u, s => (k u).exec u s
  | .object mayThrow d c, u, s =>
    (c.exec u s).follow
      (fun s => if mayThrow then d.exec u s else (d.exec u s).confine)
      (fun s e => (d.exec (u + 1) s).confine.follow (fun s => .thrown s e) .thrown)
  | .sealing c, u, s => (c.exec u s).confine
  | .attempt c h, u, s => (c.exec u s).follow .normal fun s e => (h e).exec u s
  | .say w, _, s => ⟨.normal s, [w]⟩
  | .throw e, _, s => .thrown s e
  | .stop e, _, _ => .ended e

/-- The command so many times. -/
def times : ℕ → Cmd σ ε ω → Cmd σ ε ω
  | 0, _ => .skip
  | n + 1, c => .seq c (c.times n)

/-- An object that remembers how many exceptions are on their way, and whose destructor does its work
only if there are no more of them by then. -/
def onNormalExit (d rest : Cmd σ ε ω) : Cmd σ ε ω :=
  .uncaught fun saved => .object true (.uncaught fun now => if now ≠ saved then .skip else d) rest

theorem exec_onNormalExit (d rest : Cmd σ ε ω) (u : ℕ) (s : σ) :
    (onNormalExit d rest).exec u s = (rest.exec u s).follow (d.exec u) .thrown := by
  apply Result.follow_congr
  · intro t _
    simp [exec]
  · intro t e _
    simp [exec, Result.confine]

end Cmd

/-! ## Triples -/

/-- The process goes on, and what was said is allowed. -/
def Result.Meets (T : ω → Prop) (Q : σ → Prop) (E : σ → ε → Prop) (r : Result σ ε ω) : Prop :=
  (∀ w ∈ r.said, T w) ∧
    match r.outcome with
    | .normal s => Q s
    | .thrown s e => E s e
    | .ended _ => False

/-- Where `P` holds the command ends normally with `Q` or throws with `E`, whatever is on its way. -/
def Triple (T : ω → Prop) (P : σ → Prop) (c : Cmd σ ε ω) (Q : σ → Prop) (E : σ → ε → Prop) : Prop :=
  ∀ u s, P s → (c.exec u s).Meets T Q E

section Rules

variable {T : ω → Prop} {P Q R : σ → Prop} {E F : σ → ε → Prop} {c d : Cmd σ ε ω}

theorem Result.meets_normal {s : σ} (h : Q s) : (Result.normal s : Result σ ε ω).Meets T Q E :=
  ⟨by simp [Result.normal], h⟩

theorem Result.meets_thrown {s : σ} {e : ε} (h : E s e) :
    (Result.thrown s e : Result σ ε ω).Meets T Q E :=
  ⟨by simp [Result.thrown], h⟩

theorem Result.Meets.follow {r : Result σ ε ω} (h : r.Meets T R F) {f : σ → Result σ ε ω}
    {g : σ → ε → Result σ ε ω} (onNormal : ∀ s, R s → (f s).Meets T Q E)
    (onThrown : ∀ s e, F s e → (g s e).Meets T Q E) : (r.follow f g).Meets T Q E := by
  obtain ⟨o, said⟩ := r
  obtain ⟨hsaid, hout⟩ := h
  cases o with
  | normal s =>
    obtain ⟨hnew, hlast⟩ := onNormal s hout
    refine ⟨fun w hw => ?_, hlast⟩
    rcases List.mem_append.mp hw with hw | hw
    · exact hsaid w hw
    · exact hnew w hw
  | thrown s e =>
    obtain ⟨hnew, hlast⟩ := onThrown s e hout
    refine ⟨fun w hw => ?_, hlast⟩
    rcases List.mem_append.mp hw with hw | hw
    · exact hsaid w hw
    · exact hnew w hw
  | ended e => exact hout.elim

theorem Result.Meets.imp {r : Result σ ε ω} (h : r.Meets T R F) (post : ∀ s, R s → Q s)
    (thrown : ∀ s e, F s e → E s e) : r.Meets T Q E := by
  obtain ⟨hsaid, hout⟩ := h
  refine ⟨hsaid, ?_⟩
  cases ho : r.outcome with
  | normal t =>
    rw [ho] at hout
    exact post t hout
  | thrown t e =>
    rw [ho] at hout
    exact thrown t e hout
  | ended e =>
    rw [ho] at hout
    exact hout

theorem Result.Meets.confine {r : Result σ ε ω} (h : r.Meets T Q fun _ _ => False) :
    r.confine.Meets T Q E :=
  h.follow (fun _ hs => meets_normal hs) fun _ _ hfalse => hfalse.elim

theorem Triple.conseq {P' Q' : σ → Prop} {E' : σ → ε → Prop} (h : Triple T P c Q E)
    (pre : ∀ s, P' s → P s) (post : ∀ s, Q s → Q' s) (thrown : ∀ s e, E s e → E' s e) :
    Triple T P' c Q' E' :=
  fun u s hs => (h u s (pre s hs)).imp post thrown

theorem Triple.skip : Triple T P (.skip : Cmd σ ε ω) P E := fun _ _ hs => Result.meets_normal hs

theorem Triple.act {f : σ → σ × Option ε}
    (h : ∀ s, P s → match f s with
      | (t, none) => Q t
      | (t, some e) => E t e) : Triple T P (.act f : Cmd σ ε ω) Q E := by
  intro u s hs
  have hf := h s hs
  cases hstep : f s with
  | mk t e =>
    rw [hstep] at hf
    cases e with
    | none =>
      simp only [Cmd.exec, hstep]
      exact Result.meets_normal hf
    | some e =>
      simp only [Cmd.exec, hstep]
      exact Result.meets_thrown hf

theorem Triple.seq (first : Triple T P c R E) (second : Triple T R d Q E) :
    Triple T P (.seq c d) Q E :=
  fun u s hs => (first u s hs).follow (second u) fun _ _ he => Result.meets_thrown he

theorem Triple.ask {k : σ → Cmd σ ε ω} (h : ∀ s, P s → Triple T (· = s) (k s) Q E) :
    Triple T P (.ask k) Q E :=
  fun u s hs => h s hs u s rfl

theorem Triple.object {mayThrow : Bool} (rest : Triple T P c R F)
    (onNormal : Triple T R d Q fun _ _ => False)
    (onThrown : ∀ e, Triple T (F · e) d (E · e) fun _ _ => False) :
    Triple T P (.object mayThrow d c) Q E := by
  intro u s hs
  apply (rest u s hs).follow
  · intro t ht
    have hd := onNormal u t ht
    cases mayThrow with
    | false => exact hd.confine
    | true => exact hd.imp (fun _ h => h) fun _ _ h => h.elim
  · intro t e he
    exact (onThrown e (u + 1) t he).confine.follow (E := E) (F := fun _ _ => False)
      (fun _ h => Result.meets_thrown h) fun _ _ h => h.elim

theorem Triple.onNormalExit (rest : Triple T P c R E) (exit : Triple T R d Q E) :
    Triple T P (.onNormalExit d c) Q E := by
  intro u s hs
  rw [Cmd.exec_onNormalExit]
  exact (rest u s hs).follow (exit u) fun _ _ he => Result.meets_thrown he

theorem Triple.sealing (h : Triple T P c Q fun _ _ => False) : Triple T P (.sealing c) Q E :=
  fun u s hs => (h u s hs).confine

theorem Triple.attempt {k : ε → Cmd σ ε ω} (h : Triple T P c Q F)
    (handler : ∀ e, Triple T (F · e) (k e) Q E) : Triple T P (.attempt c k) Q E :=
  fun u s hs => (h u s hs).follow (fun _ hq => Result.meets_normal hq) fun t e he => handler e u t he

/-- A loop that is done as long as `p` holds, and comes down a measure in each round: it ends where `p`
does not hold any more, if there are rounds enough. -/
theorem Triple.loop {p : σ → Bool} (measure : σ → ℕ) (left : ∀ s, P s → p s = true → 0 < measure s)
    (body : ∀ k, Triple T (fun s => P s ∧ p s = true ∧ measure s = k) c
      (fun s => P s ∧ measure s < k) E) (n : ℕ) :
    Triple T (fun s => P s ∧ (p s = true → measure s ≤ n))
      ((Cmd.ask fun s => if p s then c else .skip).times n) (fun s => P s ∧ p s = false) E := by
  induction n with
  | zero =>
    refine Triple.skip.conseq (fun _ hs => hs) ?_ fun _ _ he => he
    rintro s ⟨hP, hle⟩
    refine ⟨hP, ?_⟩
    rw [← Bool.not_eq_true]
    intro hp
    have := left s hP hp
    have := hle hp
    omega
  | succ n ih =>
    refine Triple.seq (Triple.ask ?_) ih
    rintro s ⟨hP, hle⟩
    split_ifs with hp
    · refine (body (measure s)).conseq ?_ ?_ fun _ _ he => he
      · rintro t rfl
        exact ⟨hP, hp, rfl⟩
      · rintro t ⟨ht, hless⟩
        have := hle hp
        exact ⟨ht, fun _ => by omega⟩
    · refine Triple.skip.conseq (fun _ hs => hs) ?_ fun _ _ he => he
      rintro t rfl
      exact ⟨hP, fun hp' => absurd hp' hp⟩

end Rules

end Scopes
