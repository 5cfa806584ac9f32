import IW4x.Gdk.Serials

/-!
# Looking an operation up while its slot is disposed of

`held_state::find` trusts the token in the word. Between the `fetch_sub` that drops the last hold
and the store of 0 at the end of `dispose` the token is still in place, and a look-up that falls
into this window takes a hold on a slot that nobody holds. Where no look-up does, the accounts hold
for every interleaving of the atomic steps.
-/

namespace IW4x.Gdk
namespace AsyncThreads

open Runs

variable {Op : Type} {s s' : AsyncThreads Op} {i : ℕ} {c : Choice Op} {tr ev : List Event}

/-- Where the compare-exchange of `find` is about to succeed, no thread is inside `dispose` of the
slot, and one more hold does not run over into the token. -/
def FindsUndisturbed (s : AsyncThreads Op) (input : ℕ × Choice Op) : Prop :=
  input.2.certain → ∀ r, s.Swapping input.1 r →
    s.disposals r = 0 ∧ holdsOf (s.memory.slots r).state ≠ holdMask

theorem Audit.holdsOf_state (audit : Audit (2 ^ 16 - 1) s) (r : SlotId) :
    holdsOf (s.memory.slots r).state = s.count r := by
  have hbound := audit.sound.bound r
  rw [audit.sound.holdsOf_state r]
  simp only [count]
  omega

theorem FindsUndisturbed.ready (undisturbed : FindsUndisturbed s (i, c))
    (audit : Audit (2 ^ 16 - 1) s) : Ready (2 ^ 16 - 1) .split s i c := by
  constructor
  · intro certain r swapping
    obtain ⟨hnobody, hroom⟩ := undisturbed certain r swapping
    obtain ⟨rest, b, q, ⟨t, hpos⟩, -, htoken⟩ := swapping
    have hbound := audit.sound.bound r
    rw [audit.holdsOf_state r, holdMask, holdBits] at hroom
    refine ⟨?_, ?_⟩
    · -- a slot that nobody holds or disposes of shows no token
      by_contra hzero
      have hword := audit.sound.word r
      have hidle := audit.sound.idle r (by simpa [count] using hzero) hnobody
      simp only [count] at hzero
      rw [hidle, Nat.eq_zero_of_not_pos hzero] at hword
      rw [hword] at htoken
      exact hpos (by simpa [tokenOf] using htoken.symm)
    · simp only [count] at hroom ⊢
      omega
  · intro hwhole
    cases hwhole

/-- A slot gets its first hold when it is handed out, and never again before the next time. -/
theorem Audit.first_hold {limit : ℕ} {g : Granularity} (audit : Audit limit s)
    (audit' : Audit limit s') (h : AsyncThreads.step g s (i, c) = some (s', ev)) {r : SlotId}
    (none : s.count r = 0) (some : s'.count r ≠ 0) :
    ∃ b provided ps, .begun (s'.memory.serial r) b provided ps ∈ ev := by
  rcases step_cases h with ⟨fault, rfl, rfl⟩ | ⟨old, rest, new, n, hstack, heffect, -, rfl⟩
  · exact absurd none some
  have howned := audit.sound.owned r
  have howned' := audit'.sound.owned r
  have hdisposals := total_moved (Frame.disposes r) new hstack
  simp only [count] at none some
  rw [if_pos none] at howned
  rw [if_neg some, hdisposals.2] at howned'
  cases heffect.pool with
  | quiet labels free same =>
    rw [free, labels.used, same r] at howned'
    omega
  | @disposed x owner =>
    have hold : Stacks.weight (Frame.disposes r) [.release x owner] = 0 := rfl
    rw [Memory.drop, Memory.setSlot_free, Memory.setSlot_used, hold] at howned'
    omega
  | @recycled x =>
    have hold : Stacks.weight (Frame.disposes r) [.recycle x] = if x = r then 1 else 0 := by
      simp [Frame.disposes, Frame.disposing]
    have hfree : (s.memory.recycle x).free.count r =
        s.memory.free.count r + if x = r then 1 else 0 := by
      simp [Memory.recycle, List.count_cons]
    rw [hold] at howned' hdisposals
    rw [hfree, Memory.recycle_used, Stacks.weight_nil] at howned'
    omega
  | @began a q x n₀ id o provider context _ _ provided ev' began labels free idle =>
    have hfresh := audit.sound.began_fresh began
    by_cases hx : r = x
    · subst hx
      exact ⟨a, provided, (n₀.slots r).ports, List.mem_cons_self⟩
    · have hused : ((r : ℕ) < n.used) ↔ (r : ℕ) < s.memory.used := by
        rw [labels.used, hfresh.used r]
        simp [hx]
      rw [free, hfresh.free r hx, idle r, Stacks.weight_nil] at howned'
      simp only [hused] at howned'
      omega

/-- The accounts and the ledger of a run in which no look-up meets a disposal. -/
structure Undisturbed (tr : List Event) (s : AsyncThreads Op) : Prop where
  audit : Audit (2 ^ 16 - 1) s
  serials : Serials tr s

theorem Undisturbed.step (undisturbed : Undisturbed tr s) (finds : FindsUndisturbed s (i, c))
    (h : step .split s (i, c) = some (s', ev)) : Undisturbed (tr ++ ev) s' := by
  have hready := finds.ready undisturbed.audit
  constructor
  · exact undisturbed.audit.step (le_refl _) (by norm_num) h hready
  · exact undisturbed.serials.step undisturbed.audit hready h

theorem reaches_undisturbed {threads : ℕ}
    (h : Reaches (step .split) FindsUndisturbed (start threads) tr s) : Undisturbed tr s := by
  refine h.invariant (P := Undisturbed) ⟨audit_start threads, serials_start threads⟩ ?_
  rintro tr s ⟨i, c⟩ t ev hundisturbed hfinds hstep
  exact hundisturbed.step hfinds hstep

theorem Undisturbed.disposed_le (undisturbed : Undisturbed tr s) (k : ℕ) :
    tr.count (.disposed k) ≤ 1 ∧ tr.count (.recycled k) ≤ tr.count (.disposed k) := by
  by_cases hk : k < s.memory.acquired
  · by_cases hslot : ∃ r : SlotId, (r : ℕ) < s.memory.used ∧ s.memory.serial r = k
    · obtain ⟨r, hr, rfl⟩ := hslot
      have howned := undisturbed.audit.sound.owned r
      rw [undisturbed.serials.disposed r hr, undisturbed.serials.recycled r hr]
      simp only [disposals]
      omega
    · push Not at hslot
      obtain ⟨hdisposed, hrecycled⟩ := undisturbed.serials.past k hk hslot
      omega
  · have hdisposed : tr.count (.disposed k) = 0 :=
      List.count_eq_zero.mpr (undisturbed.serials.unborn rfl (by omega))
    have hrecycled : tr.count (.recycled k) = 0 :=
      List.count_eq_zero.mpr (undisturbed.serials.unborn rfl (by omega))
    omega

theorem Undisturbed.free_nodup (undisturbed : Undisturbed tr s) : s.memory.free.Nodup := by
  rw [List.nodup_iff_count_le_one]
  intro r
  have howned := undisturbed.audit.sound.owned r
  omega

theorem Undisturbed.release_finds (undisturbed : Undisturbed tr s) {stack : List Frame}
    (hmem : stack ∈ s.threads) {r : SlotId} {owner : Owner} (hf : .release r owner ∈ stack) :
    holdsOf (s.memory.slots r).state ≠ 0 := by
  have hle := Stacks.weight_le_total (Frame.holds r) hmem
  have hone := Stacks.le_weight (Frame.holds r) hf
  rw [undisturbed.audit.holdsOf_state r]
  simp only [count]
  simp [Frame.holds, Frame.slot] at hone
  omega

theorem Undisturbed.disposing (undisturbed : Undisturbed tr s) {r : SlotId}
    (hd : 0 < s.disposals r) : s.disposals r = 1 ∧ r ∉ s.memory.free ∧
      holdsOf (s.memory.slots r).state = 0 ∧ tr.count (.disposed (s.memory.serial r)) = 1 ∧
      tr.count (.recycled (s.memory.serial r)) = 0 := by
  have hused := audit_used undisturbed.audit (.inr hd)
  have howned := undisturbed.audit.sound.owned r
  rw [undisturbed.audit.holdsOf_state r, undisturbed.serials.disposed r hused,
    undisturbed.serials.recycled r hused, ← List.count_eq_zero]
  simp only [disposals, count] at hd ⊢
  split_ifs at howned <;> omega

/-- Any number of threads may look up, release, retire and dispose of slots in any order: as long
as no look-up meets a disposal, a slot gets its first hold only when it is handed out, `release`
finds a hold to drop, the free list has no slot twice, and every slot is disposed of once for each
operation, by one thread, before it goes to a later operation. -/
theorem undisturbed_finds_keep_accounts {threads : ℕ}
    (h : Reaches (step .split) FindsUndisturbed (start threads) tr s) :
    (∀ i c s' ev, FindsUndisturbed s (i, c) → step .split s (i, c) = some (s', ev) →
      ∀ r, holdsOf (s.memory.slots r).state = 0 → holdsOf (s'.memory.slots r).state ≠ 0 →
        ∃ b provided ps, .begun (s'.memory.serial r) b provided ps ∈ ev) ∧
    (∀ stack ∈ s.threads, ∀ r owner, .release r owner ∈ stack →
      holdsOf (s.memory.slots r).state ≠ 0) ∧
    s.memory.free.Nodup ∧
    (∀ r, 0 < s.disposals r → s.disposals r = 1 ∧ r ∉ s.memory.free ∧
      holdsOf (s.memory.slots r).state = 0 ∧ tr.count (.disposed (s.memory.serial r)) = 1 ∧
      tr.count (.recycled (s.memory.serial r)) = 0) ∧
    ∀ k, tr.count (.disposed k) ≤ 1 ∧ tr.count (.recycled k) ≤ tr.count (.disposed k) := by
  have hundisturbed := reaches_undisturbed h
  refine ⟨?_, fun _ hmem _ _ => hundisturbed.release_finds hmem, hundisturbed.free_nodup,
    fun _ => hundisturbed.disposing, hundisturbed.disposed_le⟩
  intro i c s' ev hfinds hstep r hnone hsome
  have hnext := hundisturbed.step hfinds hstep
  rw [hundisturbed.audit.holdsOf_state r] at hnone
  rw [hnext.audit.holdsOf_state r] at hsome
  exact hundisturbed.audit.first_hold hnext.audit hstep hnone hsome

instance (c : Choice Op) : Decidable c.certain :=
  match c with
  | .call _ _ => isTrue trivial
  | .answer _ => isTrue trivial
  | .go e => inferInstanceAs (Decidable (e.spurious = false))

/-- Whether a look-up is undisturbed is seen from the activation on top of the thread. -/
def Frame.undisturbed (s : AsyncThreads Op) (c : Choice Op) : Frame → Bool
  | .findSwap _ _ r t w => decide (c.certain → (s.memory.slots r).state = w → tokenOf w = t →
      s.disposals r = 0 ∧ holdsOf (s.memory.slots r).state ≠ holdMask)
  | _ => true

theorem findsUndisturbed_iff (s : AsyncThreads Op) (input : ℕ × Choice Op) :
    FindsUndisturbed s input ↔
      ((s.threads[input.1]?.bind List.head?).all (Frame.undisturbed s input.2)) = true := by
  constructor
  · intro h
    cases hstack : s.threads[input.1]? with
    | none => rfl
    | some stack =>
      cases stack with
      | nil => rfl
      | cons f rest =>
        cases f with
        | findSwap b q r t w =>
          simp only [Option.bind_some, List.head?_cons, Option.all_some, Frame.undisturbed,
            decide_eq_true_eq]
          rintro certain rfl htoken
          exact h certain r ⟨rest, b, q, t, hstack, htoken⟩
        | _ => rfl
  · rintro h certain r ⟨rest, b, q, t, hstack, htoken⟩
    simp only [hstack, Option.bind_some, List.head?_cons, Option.all_some, Frame.undisturbed,
      decide_eq_true_eq] at h
    exact h certain trivial htoken

instance (s : AsyncThreads Op) (input : ℕ × Choice Op) : Decidable (FindsUndisturbed s input) :=
  decidable_of_iff _ (findsUndisturbed_iff s input).symm

section Run

/-- An operation is begun on an immediate port and finishes at once. -/
def beginDone : List (ℕ × Choice Unit) :=
  [(0, .call (.createQueue .immediate .immediate) {}), (0, .go {}),
    (0, .call (.prepare 0 (some 0) none) {}), (0, .call (.begin (some 0) 1 ()) {}), (0, .go {}),
    (0, .answer (.returned 0)), (0, .go {}), (0, .go {}), (0, .go {}), (0, .go {})]

/-- Another thread polls the status and has loaded the word. -/
def pollWord : List (ℕ × Choice Unit) :=
  [(1, .call (.query (some 0) (.status false)) {}), (1, .go {}), (1, .go {}), (1, .go {})]

/-- The first thread takes the result and drops the last hold. -/
def takeLast : List (ℕ × Choice Unit) :=
  [(0, .call (.query (some 0) (.result none 0 false)) {}), (0, .go {}), (0, .go {}), (0, .go {}),
    (0, .go {}), (0, .go {}), (0, .answer (.returned 0)), (0, .go {}), (0, .go {}), (0, .go {})]

/-- The poll goes on, and both threads dispose of the slot. -/
def pollRevives : List (ℕ × Choice Unit) :=
  [(1, .go {}), (1, .go {}), (1, .go {}), (1, .go {}), (1, .go {}), (1, .answer (.returned 0)),
    (1, .go {}), (1, .go {}), (0, .go {}), (0, .go {}), (0, .go {})]

theorem poll_trace : (execute (step .split) (start 2) (beginDone ++ pollWord ++ [(1, .go {})])).map
    (fun last => (last.2.count (.found 0), last.1.memory.free)) = some (1, []) := by
  decide

/-- A poll that no disposal disturbs takes its hold, and the accounts are kept. -/
theorem undisturbed_finds_keep_accounts_poll :
    ∃ (s : AsyncThreads Unit) (tr : List Event),
      Reaches (step .split) FindsUndisturbed (start 2) tr s ∧ tr.count (.found 0) = 1 ∧
        s.memory.free.Nodup ∧ tr.count (.disposed 0) ≤ 1 := by
  obtain ⟨⟨s, tr⟩, hrun, htr⟩ := Option.map_eq_some_iff.mp poll_trace
  have h : Reaches (step .split) FindsUndisturbed (start 2) tr s :=
    reaches_of_execute _ hrun (by decide)
  obtain ⟨-, -, hfree, -, honce⟩ := undisturbed_finds_keep_accounts h
  simp only [Prod.mk.injEq] at htr
  exact ⟨s, tr, h, htr.1, hfree, (honce 0).1⟩

theorem revived_trace : (execute (step .split) (start 2)
    (beginDone ++ pollWord ++ takeLast ++ pollRevives)).map
    (fun last => (last.1.memory.free, last.2.count (.disposed 0))) = some ([0, 0], 2) := by
  decide

/-- It is not so for every interleaving: a status poll that has loaded the word, while another
thread takes the result, takes a hold on a slot that is being disposed of. The slot is disposed of
twice and is on the free list twice. -/
theorem find_revives_disposed_slot :
    ¬ ∀ (tr : List Event) (s : AsyncThreads Unit),
      Reaches (step .split) always (start 2) tr s →
        s.memory.free.Nodup ∧ ∀ k, tr.count (.disposed k) ≤ 1 := by
  intro hclaim
  obtain ⟨⟨s, tr⟩, hrun, htr⟩ := Option.map_eq_some_iff.mp revived_trace
  obtain ⟨hfree, honce⟩ := hclaim tr s (reaches_of_run hrun)
  simp only [Prod.mk.injEq] at htr
  have := honce 0
  omega

end Run

end AsyncThreads
end IW4x.Gdk
