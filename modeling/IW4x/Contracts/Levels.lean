import IW4x.Contracts.Checks

/-!
# Checking levels

A function that violates no contract when everything is checked does the same at every other level, and
relies on nothing that does not hold where nothing is checked. A violation is never passed over: where
no exception is caught, a function that returns has violated nothing, and one that throws has violated
one contract at most.
-/

namespace IW4x.Contracts

open Scopes

variable {σ ε : Type}

/-! ## Fewer checks -/

section Fewer

variable {current : σ → Option Handler}

theorem failing_said (v : Violation) (s : σ) :
    (failing current v s : Result σ (Thrown ε) Notice).said ≠ [] := by
  unfold failing
  cases current s with
  | none => simp
  | some h => cases hthrows : h v <;> simp [hthrows]

theorem checking_said {v : Violation} {e : σ → Bool} {s : σ} :
    (checking current v e s : Result σ (Thrown ε) Notice).said = [] ↔ e s = true := by
  unfold checking
  split_ifs with h
  · simp [h, Result.normal]
  · simp [h, failing_said]

theorem checking_of {v : Violation} {e : σ → Bool} {s : σ} (h : e s = true) :
    (checking current v e s : Result σ (Thrown ε) Notice) = .normal s := if_pos h

theorem follow_silent {r r' : Result σ (Thrown ε) Notice} {f f' : σ → Result σ (Thrown ε) Notice}
    {g g' : σ → Thrown ε → Result σ (Thrown ε) Notice} (silent : (r'.follow f' g').said = [])
    (first : r'.said = [] → r = r') (onNormal : ∀ s, (f' s).said = [] → f s = f' s)
    (onThrown : ∀ s e, (g' s e).said = [] → g s e = g' s e) : r.follow f g = r'.follow f' g' := by
  obtain ⟨hr, hf, hg⟩ := Result.follow_said_nil.mp silent
  rw [first hr]
  exact Result.follow_congr (fun s hs => onNormal s (hf s hs)) fun s e he => onThrown s e (hg s e he)

theorem rounds_silent {body body' : σ → Result σ (Thrown ε) Notice} {p : σ → Bool}
    (h : ∀ s, (body' s).said = [] → body s = body' s) (n : ℕ) (s : σ)
    (silent : (rounds body' p n s).said = []) : rounds body p n s = rounds body' p n s := by
  induction n generalizing s with
  | zero => rfl
  | succ n ih =>
    apply follow_silent silent
    · intro hfirst
      split_ifs at hfirst ⊢
      · exact h s hfirst
      · rfl
    · exact ih
    · exact fun _ _ _ => rfl

theorem confine_silent {r r' : Result σ (Thrown ε) Notice} (silent : r'.confine.said = [])
    (first : r'.said = [] → r = r') : r.confine = r'.confine :=
  follow_silent silent first (fun _ _ => rfl) fun _ _ _ => rfl

theorem level_le {l l' : Level} {n : ℕ} (h : l.value ≤ l'.value) (hn : n ≤ l.value) :
    n ≤ l'.value := hn.trans h

/-- A function that says nothing at a level does the same at the levels below. -/
theorem meaning_silent {l l' : Level} (h : l.value ≤ l'.value) (c : Checked σ ε) (s : σ)
    (silent : (meaning current l' c s).said = []) : meaning current l c s = meaning current l' c s := by
  induction c generalizing s with
  | act f => rfl
  | seq c d ihc ihd => exact follow_silent silent (ihc s) ihd fun _ _ _ => rfl
  | branch p c d ihc ihd =>
    simp only [meaning] at silent ⊢
    split_ifs at silent ⊢
    · exact ihc s silent
    · exact ihd s silent
  | loop n p c ih => exact rounds_silent ih _ _ silent
  | pre v m e =>
    simp only [meaning] at silent ⊢
    split_ifs at silent ⊢ with hl hl'
    · rfl
    · exact absurd (level_le h hl) hl'
    · exact (checking_of (checking_said.mp silent)).symm
    · rfl
  | assertion v m e =>
    simp only [meaning] at silent ⊢
    by_cases he : e s = true
    · simp only [checking_of he, if_pos he, ite_self]
    · split_ifs at silent ⊢ with hl hl'
      · rfl
      · exact absurd (level_le h hl) hl'
      · exact absurd (checking_said.mp silent) he
      · rfl
  | unreachable v =>
    simp only [meaning] at silent ⊢
    split_ifs at silent ⊢ with hl hl'
    · rfl
    · exact absurd (level_le h hl) hl'
    · exact absurd silent (failing_said _ _)
    · rfl
  | post v e c ih =>
    simp only [meaning] at silent ⊢
    split_ifs at silent ⊢ with hl hl'
    · exact follow_silent silent (ih s) (fun _ _ => rfl) fun _ _ _ => rfl
    · exact absurd (level_le h hl) hl'
    · obtain ⟨hbody, hexit, -⟩ := Result.follow_said_nil.mp silent
      rw [ih s hbody]
      calc meaning current l' c s = (meaning current l' c s).follow .normal .thrown := by simp
        _ = _ := Result.follow_congr
          (fun t ht => (checking_of (checking_said.mp (hexit t ht))).symm) fun _ _ _ => rfl
    · exact ih s silent
  | invariant v e c ih =>
    simp only [meaning] at silent ⊢
    split_ifs at silent ⊢ with hl hl'
    · apply follow_silent silent
      · exact fun _ => rfl
      · intro t ht
        exact follow_silent ht (ih t) (fun _ _ => rfl) fun _ _ _ => rfl
      · exact fun _ _ _ => rfl
    · exact absurd (level_le h hl) hl'
    · obtain ⟨hentry, hscope, -⟩ := Result.follow_said_nil.mp silent
      have he := checking_said.mp hentry
      rw [checking_of he] at hscope ⊢
      obtain ⟨hbody, hexit, -⟩ := Result.follow_said_nil.mp (hscope s rfl)
      rw [ih s hbody]
      calc meaning current l' c s = (meaning current l' c s).follow .normal .thrown := by simp
        _ = _ := Result.follow_congr
          (fun t ht => (checking_of (checking_said.mp (hexit t ht))).symm) fun _ _ _ => rfl
    · exact ih s silent
  | object d c ihd ihc =>
    apply follow_silent silent (ihc s)
    · exact fun t ht => confine_silent ht (ihd t)
    · intro t e ht
      exact follow_silent ht (fun hd => confine_silent hd (ihd t)) (fun _ _ => rfl) fun _ _ _ => rfl
  | sealing c ih => exact confine_silent silent (ih s)
  | attempt c h ihc ihh => exact follow_silent silent (ihc s) (fun _ _ => rfl) fun t _ => ihh t

end Fewer

/-- A call that violates no contract at some level comes to the same at every level below, also where
the optimizer relies on the assertions, and wherever it is called from. -/
theorem levels_agree (current : σ → Option Handler) (l l' : Level) (h : l.value ≤ l'.value)
    (c : Checked σ ε) (u u' : ℕ) (s : σ) (silent : ((expand current l' c).exec u' s).said = []) :
    (expand current l c).exec u s = (expand current l' c).exec u' s := by
  rw [expand_meaning] at silent ⊢
  rw [expand_meaning]
  exact meaning_silent h c s silent

def takeOne : Checked ℕ Unit :=
  .invariant ⟨[], [], [], 1⟩ (fun n => decide (n ≤ 3))
    (.seq (.assertion ⟨[], [], [], 2⟩ none fun n => decide (n ≠ 0)) (.act fun n => (n - 1, none)))

theorem levels_agree_takeOne :
    (expand (fun _ => none) .off takeOne).exec 0 3 =
      (expand (fun _ => none) .audit takeOne).exec 1 3 :=
  levels_agree (fun _ => none) .off .audit (by decide) takeOne 0 1 3 (by decide)

/-! ## Violations -/

/-- The handler hears of violations; a report is the last thing that is said, of a process that is
aborted; and what the process does is known where everything is checked that is relied on. -/
structure Accounted (l : Level) (r : Result σ (Thrown ε) Notice) : Prop where
  said : ∃ hs : List Violation, r.said = hs.map .handled ∧ r.outcome ≠ .ended .aborted ∨
    ∃ v, r.said = hs.map .handled ++ [.reported (report v)] ∧ r.outcome = .ended .aborted
  known : r.outcome = .ended .undefined → l = .off

/-- Nothing was violated by a function that returns, and at most what it throws by one that throws. -/
def AtMostOne (r : Result σ (Thrown ε) Notice) : Prop :=
  match r.outcome with
  | .normal _ => r.said = []
  | .thrown _ (.code _) => r.said = []
  | .thrown _ (.violation v) => r.said = [.handled v]
  | .ended _ => True

theorem Accounted.normal (l : Level) (s : σ) :
    Accounted l (.normal s : Result σ (Thrown ε) Notice) :=
  ⟨⟨[], .inl ⟨rfl, by simp [Result.normal]⟩⟩, by simp [Result.normal]⟩

theorem Accounted.thrown (l : Level) (s : σ) (e : Thrown ε) :
    Accounted l (.thrown s e : Result σ (Thrown ε) Notice) :=
  ⟨⟨[], .inl ⟨rfl, by simp [Result.thrown]⟩⟩, by simp [Result.thrown]⟩

theorem Accounted.failing {current : σ → Option Handler} (l : Level) (v : Violation) (s : σ) :
    Accounted l (failing current v s : Result σ (Thrown ε) Notice) := by
  unfold Contracts.failing
  cases current s with
  | none => exact ⟨⟨[], .inr ⟨v, rfl, rfl⟩⟩, by simp⟩
  | some h =>
    cases hthrows : h v with
    | true => exact ⟨⟨[v], .inl ⟨by simp [hthrows], by simp [hthrows]⟩⟩, by simp [hthrows]⟩
    | false => exact ⟨⟨[v], .inr ⟨v, by simp [hthrows], by simp [hthrows]⟩⟩, by simp [hthrows]⟩

theorem Accounted.checking {current : σ → Option Handler} (l : Level) (v : Violation) (e : σ → Bool)
    (s : σ) : Accounted l (checking current v e s : Result σ (Thrown ε) Notice) := by
  unfold Contracts.checking
  split_ifs
  · exact .normal l s
  · exact .failing l v s

theorem Accounted.after {l : Level} {r : Result σ (Thrown ε) Notice} (h : Accounted l r)
    (hs : List Violation) : Accounted l (r.after (hs.map .handled)) := by
  obtain ⟨⟨hs', hsaid⟩, hknown⟩ := h
  refine ⟨⟨hs ++ hs', ?_⟩, hknown⟩
  rcases hsaid with ⟨hsaid, hout⟩ | ⟨v, hsaid, hout⟩
  · exact .inl ⟨by simp [hsaid], hout⟩
  · exact .inr ⟨v, by simp [hsaid], hout⟩

theorem Accounted.follow {l : Level} {r : Result σ (Thrown ε) Notice} (h : Accounted l r)
    {f : σ → Result σ (Thrown ε) Notice} {g : σ → Thrown ε → Result σ (Thrown ε) Notice}
    (onNormal : ∀ s, Accounted l (f s)) (onThrown : ∀ s e, Accounted l (g s e)) :
    Accounted l (r.follow f g) := by
  obtain ⟨o, said⟩ := r
  obtain ⟨⟨hs, hsaid⟩, hknown⟩ := h
  cases o with
  | normal s =>
    rcases hsaid with ⟨rfl, -⟩ | ⟨v, -, hout⟩
    · exact (onNormal s).after hs
    · cases hout
  | thrown s e =>
    rcases hsaid with ⟨rfl, -⟩ | ⟨v, -, hout⟩
    · exact (onThrown s e).after hs
    · cases hout
  | ended e => exact ⟨⟨hs, hsaid⟩, hknown⟩

theorem Accounted.confine {l : Level} {r : Result σ (Thrown ε) Notice} (h : Accounted l r) :
    Accounted l r.confine :=
  h.follow (Accounted.normal l) fun _ _ =>
    ⟨⟨[], .inl ⟨rfl, by simp [Result.ended]⟩⟩, by simp [Result.ended]⟩

theorem Accounted.rounds {l : Level} {body : σ → Result σ (Thrown ε) Notice} {p : σ → Bool}
    (h : ∀ s, Accounted l (body s)) (n : ℕ) (s : σ) : Accounted l (rounds body p n s) := by
  induction n generalizing s with
  | zero => exact .normal l s
  | succ n ih =>
    apply Accounted.follow _ ih (Accounted.thrown l)
    split_ifs
    · exact h s
    · exact .normal l s

theorem AtMostOne.failing (current : σ → Option Handler) (v : Violation) (s : σ) :
    AtMostOne (failing current v s : Result σ (Thrown ε) Notice) := by
  unfold Contracts.failing AtMostOne
  cases current s with
  | none => trivial
  | some h => cases hthrows : h v <;> simp [hthrows]

theorem AtMostOne.checking (current : σ → Option Handler) (v : Violation) (e : σ → Bool) (s : σ) :
    AtMostOne (checking current v e s : Result σ (Thrown ε) Notice) := by
  unfold Contracts.checking
  split_ifs
  · exact (rfl : ([] : List Notice) = [])
  · exact .failing current v s

theorem AtMostOne.follow {r : Result σ (Thrown ε) Notice} (h : AtMostOne r)
    {f : σ → Result σ (Thrown ε) Notice} (onNormal : ∀ s, AtMostOne (f s)) :
    AtMostOne (r.follow f .thrown) := by
  obtain ⟨o, said⟩ := r
  cases o with
  | normal s =>
    obtain rfl : said = [] := h
    exact onNormal s
  | thrown s e => cases e <;> simpa [AtMostOne, Result.follow, Result.after, Result.thrown] using h
  | ended e => trivial

theorem AtMostOne.confine {r : Result σ (Thrown ε) Notice} (h : AtMostOne r) :
    AtMostOne r.confine := by
  obtain ⟨o, said⟩ := r
  cases o with
  | normal s => simpa [AtMostOne, Result.confine, Result.follow, Result.after, Result.normal] using h
  | thrown s e => trivial
  | ended e => trivial

/-- A destructor that comes to an end lets the exception pass as it is. -/
theorem AtMostOne.pass {r : Result σ (Thrown ε) Notice} (h : AtMostOne r)
    {d : σ → Result σ (Thrown ε) Notice} (destructor : ∀ s, AtMostOne (d s)) :
    AtMostOne (r.follow (fun s => (d s).confine)
      fun s e => (d s).confine.follow (fun s => .thrown s e) .thrown) := by
  obtain ⟨o, said⟩ := r
  cases o with
  | normal s =>
    obtain rfl : said = [] := h
    exact (destructor s).confine
  | thrown s e =>
    have hd := destructor s
    cases hdone : d s with
    | mk o' said' =>
      rw [hdone] at hd
      cases o' with
      | normal t =>
        obtain rfl : said' = [] := hd
        cases e <;> simpa [AtMostOne, Result.confine, Result.follow, Result.after, Result.thrown,
          Result.normal, hdone] using h
      | thrown t e' =>
        simp [AtMostOne, Result.confine, Result.follow, Result.after, Result.ended, hdone]
      | ended e' => simp [AtMostOne, Result.confine, Result.follow, Result.after, hdone]
  | ended e => trivial

theorem AtMostOne.rounds {body : σ → Result σ (Thrown ε) Notice} {p : σ → Bool}
    (h : ∀ s, AtMostOne (body s)) (n : ℕ) (s : σ) : AtMostOne (rounds body p n s) := by
  induction n generalizing s with
  | zero => exact (rfl : ([] : List Notice) = [])
  | succ n ih =>
    refine AtMostOne.follow ?_ ih
    split_ifs
    · exact h s
    · exact (rfl : ([] : List Notice) = [])

section Caught

variable (current : σ → Option Handler) (l : Level)

/-- What the `try` blocks in the rounds of a loop catch. -/
def caughtRounds (body : σ → Result σ (Thrown ε) Notice) (inBody : σ → List (Thrown ε))
    (p : σ → Bool) : ℕ → σ → List (Thrown ε)
  | 0, _ => []
  | n + 1, s =>
    (if p s then inBody s else []) ++
      (if p s then body s else .normal s).onward (caughtRounds body inBody p n) fun _ _ => []

end Caught

def heard (said : List Notice) : List Violation :=
  said.filterMap fun
    | .handled v => some v
    | .reported _ => none

/-- Those among the exceptions that are a handler's. -/
def violations (es : List (Thrown ε)) : List Violation :=
  es.filterMap fun
    | .violation v => some v
    | .code _ => none

/-- Each violation that a handler hears of is thrown: a `try` block catches it, or it is what leaves, if
the process does not end. The exceptions `es` were on their way before. -/
def Matched (es : List (Thrown ε)) (r : Result σ (Thrown ε) Notice) (cs : List (Thrown ε)) : Prop :=
  match r.outcome with
  | .normal _ => (violations es ++ heard r.said).Perm (violations cs)
  | .thrown _ e => (violations es ++ heard r.said).Perm (violations cs ++ violations [e])
  | .ended _ => (violations cs).Subperm (violations es ++ heard r.said)

theorem violations_append (es cs : List (Thrown ε)) :
    violations (es ++ cs) = violations es ++ violations cs := List.filterMap_append

theorem heard_append (said said' : List Notice) : heard (said ++ said') = heard said ++ heard said' :=
  List.filterMap_append

theorem Matched.normal (s : σ) : Matched [] (.normal s : Result σ (Thrown ε) Notice) [] := .refl _

theorem Matched.thrown (s : σ) (e : Thrown ε) :
    Matched [e] (.thrown s e : Result σ (Thrown ε) Notice) [] := by
  change (violations [e] ++ heard []).Perm (violations [] ++ violations [e])
  simp [heard, violations]

theorem Matched.ended (es : List (Thrown ε)) (e : Ending) :
    Matched es (.ended e : Result σ (Thrown ε) Notice) [] := List.nil_subperm

theorem Matched.failing (current : σ → Option Handler) (v : Violation) (s : σ) :
    Matched [] (failing current v s : Result σ (Thrown ε) Notice) [] := by
  unfold Contracts.failing
  cases current s with
  | none => exact List.nil_subperm
  | some h =>
    cases hthrows : h v with
    | true => simp [Matched, heard, violations, hthrows]
    | false => simp [Matched, violations, hthrows]

theorem Matched.checking (current : σ → Option Handler) (v : Violation) (e : σ → Bool) (s : σ) :
    Matched [] (checking current v e s : Result σ (Thrown ε) Notice) [] := by
  unfold Contracts.checking
  split_ifs
  · exact .normal s
  · exact .failing current v s

/-- The exceptions `es'` are on their way after what was said before. -/
theorem Matched.after {es es' cs cs' : List (Thrown ε)} {r : Result σ (Thrown ε) Notice}
    {said : List Notice} (before : (violations es ++ heard said).Perm (violations cs ++ violations es'))
    (h : Matched es' r cs') : Matched es (r.after said) (cs ++ cs') := by
  have hall : (violations es ++ heard (said ++ r.said)).Perm
      (violations cs ++ (violations es' ++ heard r.said)) := by
    rw [heard_append, ← List.append_assoc, ← List.append_assoc]
    exact before.append_right _
  obtain ⟨o, said'⟩ := r
  cases o with
  | normal s =>
    change (violations es ++ heard (said ++ said')).Perm (violations (cs ++ cs'))
    rw [violations_append]
    exact hall.trans (h.append_left _)
  | thrown s e =>
    change (violations es ++ heard (said ++ said')).Perm (violations (cs ++ cs') ++ violations [e])
    rw [violations_append, List.append_assoc]
    exact hall.trans (h.append_left _)
  | ended e =>
    change (violations (cs ++ cs')).Subperm (violations es ++ heard (said ++ said'))
    rw [violations_append]
    exact ((List.subperm_append_left _).mpr h).trans hall.symm.subperm

theorem Matched.follow {es cs : List (Thrown ε)} {r : Result σ (Thrown ε) Notice}
    (h : Matched es r cs) {f : σ → Result σ (Thrown ε) Notice}
    {g : σ → Thrown ε → Result σ (Thrown ε) Notice} {fcs : σ → List (Thrown ε)}
    {gcs : σ → Thrown ε → List (Thrown ε)} (onNormal : ∀ s, Matched [] (f s) (fcs s))
    (onThrown : ∀ s e, Matched [e] (g s e) (gcs s e)) :
    Matched es (r.follow f g) (cs ++ r.onward fcs gcs) := by
  obtain ⟨o, said⟩ := r
  cases o with
  | normal s =>
    have hbefore : (violations es ++ heard said).Perm
        (violations cs ++ violations ([] : List (Thrown ε))) := by
      have hnil : violations ([] : List (Thrown ε)) = [] := rfl
      rw [hnil, List.append_nil]
      exact h
    exact Matched.after hbefore (onNormal s)
  | thrown s e => exact Matched.after h (onThrown s e)
  | ended e => simpa [Result.follow, Result.onward] using h

theorem Matched.next {cs : List (Thrown ε)} {r : Result σ (Thrown ε) Notice} (h : Matched [] r cs)
    {f : σ → Result σ (Thrown ε) Notice} {fcs : σ → List (Thrown ε)}
    (onNormal : ∀ s, Matched [] (f s) (fcs s)) :
    Matched [] (r.follow f .thrown) (cs ++ r.onward fcs fun _ _ => []) :=
  h.follow onNormal Matched.thrown

theorem Matched.confine {es cs : List (Thrown ε)} {r : Result σ (Thrown ε) Notice}
    (h : Matched es r cs) : Matched es r.confine cs := by
  have hnext := h.follow Matched.normal fun _ e => Matched.ended [e] .terminated
  rwa [Result.onward_nil, List.append_nil] at hnext

theorem Matched.pass {cs : List (Thrown ε)} {r : Result σ (Thrown ε) Notice} (h : Matched [] r cs)
    (e : Thrown ε) : Matched [e] (r.confine.follow (fun s => .thrown s e) .thrown) cs := by
  obtain ⟨o, said⟩ := r
  cases o with
  | normal s =>
    change (violations [e] ++ heard (said ++ [] ++ [])).Perm (violations cs ++ violations [e])
    rw [List.append_nil, List.append_nil]
    exact List.perm_append_comm.trans (h.append_right _)
  | thrown s e' =>
    change (violations cs).Subperm (violations [e] ++ heard (said ++ []))
    rw [List.append_nil]
    have hperm : (heard said).Perm (violations cs ++ violations [e']) := h
    exact (((List.sublist_append_left _ _).subperm).trans hperm.symm.subperm).trans
      (List.sublist_append_right _ _).subperm
  | ended e' =>
    have hsub : (violations cs).Subperm (heard said) := h
    exact hsub.trans (List.sublist_append_right _ _).subperm

theorem Matched.rounds {body : σ → Result σ (Thrown ε) Notice} {inBody : σ → List (Thrown ε)}
    {p : σ → Bool} (h : ∀ s, Matched [] (body s) (inBody s)) (n : ℕ) (s : σ) :
    Matched [] (rounds body p n s) (caughtRounds body inBody p n s) := by
  induction n generalizing s with
  | zero => exact .normal s
  | succ n ih =>
    apply Matched.next _ ih
    split_ifs
    · exact h s
    · exact .normal s

end IW4x.Contracts
