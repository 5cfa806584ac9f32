import IW4x.Gdk.HoldAccounts

/-!
# Blocks and the operations they name

A block names the operation that was last begun with it, until that operation is retired. Whatever
`take_result` answers once the operation is completed, it retires the operation: after a buffer
that was too short the block names nothing any more.
-/

namespace IW4x.Gdk

open Runs

variable {Op : Type}

/-- What the ledger of blocks knows about an answer: the operation was begun with the block, and a
result that did not fit has retired it. -/
structure Answered (tr : List Event) (b : BlockId) (q : Query) (k : ℕ) (reply : Reply) : Prop where
  begun : ∃ p ps, .begun k b p ps ∈ tr
  retired : ∀ id size used, q = .result id size used → reply = .code insufficientBuffer →
    .retired k ∈ tr

theorem Answered.mono {tr : List Event} {b : BlockId} {q : Query} {k : ℕ} {reply : Reply}
    (answered : Answered tr b q k reply) (ev : List Event) : Answered (tr ++ ev) b q k reply := by
  obtain ⟨p, ps, hbegun⟩ := answered.begun
  refine ⟨⟨p, ps, List.mem_append_left _ hbegun⟩, ?_⟩
  intro id size used hq hreply
  exact List.mem_append_left _ (answered.retired id size used hq hreply)

/-- One of the activations holds slot `r` for a call with block `b`. -/
def HeldFor (old : List Frame) (b : BlockId) (r : SlotId) : Prop :=
  ∃ f ∈ old, f.caller = some b ∧ f.slot = some r

/-- What is known of an activation that a step puts on the stack in place of `old`. -/
structure Stems (m : Memory Op) (old : List Frame) (ev : List Event) (f : Frame) : Prop where
  calls : ∀ b r, f.caller = some b → f.slot = some r →
    HeldFor old b r ∨ m.find (some b) = some r
  answers : ∀ b q k reply, f = .returns (.query (some b) q (some k)) reply →
    ∃ r, m.serial r = k ∧ HeldFor old b r ∧ ∀ id size used, q = .result id size used →
      reply = .code insufficientBuffer → (m.slots r).retired = true ∨ .retired k ∈ ev

/-- What the ledger of blocks sees of a slot. -/
def AsyncState.naming (s : AsyncState Op) : ℕ × Bool × Option BlockId :=
  (s.serial, s.retired, s.block)

/-- What a step means for the blocks, where no slot is handed out. -/
inductive LinkEffect (m : Memory Op) : List Frame → Memory Op → List Frame → List Event → Prop
  | quiet {old n new ev} (used : n.used = m.used)
      (naming : ∀ i, (n.slots i).naming = (m.slots i).naming)
      (link : ∀ b, (n.blocks b).link = (m.blocks b).link)
      (begins : ∀ k b p ps, .begun k b p ps ∉ ev) (retires : ∀ k, .retired k ∉ ev)
      (returns : ∀ src reply, .returned src reply ∈ ev → .returns src reply ∈ old)
      (stems : ∀ f ∈ new, Stems m old ev f) : LinkEffect m old n new ev
  | retires {old r new} (holds : ∃ f ∈ old, f.slot = some r ∨ f.begins = some r)
      (stems : ∀ f ∈ new, Stems m old [.retired (m.serial r)] f) :
      LinkEffect m old (m.retireSlot r) new [.retired (m.serial r)]

/-- The same, or a slot is handed out first. -/
inductive LinkStep (m : Memory Op) : List Frame → Memory Op → List Frame → List Event → Prop
  | same {old n new ev} (effect : LinkEffect m old n new ev) : LinkStep m old n new ev
  | began {a q r n₀ id o provider context n new provided ps ev}
      (began : Began m a q r n₀ id o provider context) (effect : LinkEffect n₀ [] n new ev) :
      LinkStep m [] n new (.begun (n₀.serial r) a provided ps :: ev)
  | refused {a q r n₀ id o provider context new provided ps}
      (began : Began m a q r n₀ id o provider context)
      (stems : ∀ f ∈ new, Stems n₀ [] [.retired (n₀.serial r)] f) :
      LinkStep m [] (n₀.retireSlot r) new
        [.begun (n₀.serial r) a provided ps, .retired (n₀.serial r)]

/-- The event tells of no block. -/
def Event.aside : Event → Bool
  | .begun .. => false
  | .retired _ => false
  | .returned .. => false
  | _ => true

theorem stems_plain {m : Memory Op} {old : List Frame} {ev : List Event} {f : Frame}
    (plain : f.plain) : Stems m old ev f := by
  obtain ⟨⟨hslot, -⟩, -, hanswers⟩ := plain
  constructor
  · intro b r _ hr
    rw [hslot] at hr
    cases hr
  · rintro b q k reply rfl
    cases hanswers

theorem stems_silent {m : Memory Op} {old : List Frame} {ev : List Event} {f : Frame}
    (caller : f.caller = none) (answers : f.answers = none) : Stems m old ev f := by
  constructor
  · intro b r hb
    rw [caller] at hb
    cases hb
  · rintro b q k reply rfl
    cases answers

theorem stems_alone {m : Memory Op} {old : List Frame} {ev : List Event} {f : Frame}
    (caller : f.caller = none) (answers : f.answers = none) : ∀ x ∈ [f], Stems m old ev x :=
  List.forall_mem_singleton.mpr (stems_silent caller answers)

theorem stems_above {m : Memory Op} {old new : List Frame} {ev : List Event} {f : Frame}
    (caller : f.caller = none) (answers : f.answers = none) (below : ∀ x ∈ new, Stems m old ev x) :
    ∀ x ∈ f :: new, Stems m old ev x :=
  List.forall_mem_cons.mpr ⟨stems_silent caller answers, below⟩

theorem stems_held {m : Memory Op} {old : List Frame} {ev : List Event} {f : Frame} {r : SlotId}
    (slot : f.slot = some r) (held : ∀ b, f.caller = some b → HeldFor old b r) :
    Stems m old ev f := by
  constructor
  · intro b x hb hx
    rw [slot, Option.some.injEq] at hx
    exact .inl (hx ▸ held b hb)
  · rintro b q k reply rfl
    cases slot

theorem stems_settle {m : Memory Op} {old : List Frame} {ev : List Event} {r : SlotId}
    {b : BlockId} {q : Query} {reply : Reply} (held : HeldFor old b r)
    (short : ∀ id size used, q = .result id size used → reply = .code insufficientBuffer →
      (m.slots r).retired = true ∨ .retired (m.serial r) ∈ ev) :
    ∀ f ∈ m.settle r b q reply, Stems m old ev f := by
  intro f hf
  rcases List.mem_cons.mp hf with rfl | hf
  · exact stems_silent rfl rfl
  · rw [List.mem_singleton.mp hf]
    constructor
    · intro b' x hb
      cases hb
    · intro b' q' k reply' heq
      simp only [Frame.returns.injEq, Source.query.injEq, Option.some.injEq] at heq
      obtain ⟨⟨rfl, rfl, rfl⟩, rfl⟩ := heq
      exact ⟨r, rfl, held, short⟩

theorem stems_after {m : Memory Op} {old : List Frame} {ev : List Event} {r : SlotId} {next : Next}
    (held : ∀ b, next.caller = some b → HeldFor old b r) :
    ∀ f ∈ m.after r next, Stems m old ev f := by
  have hcode : (Reply.code S_OK) ≠ .code insufficientBuffer := by decide
  cases next with
  | task =>
    intro f hf
    rw [List.mem_singleton.mp hf]
    exact stems_silent rfl rfl
  | complete b q => exact stems_settle (held b rfl) fun _ _ _ _ h => absurd h hcode
  | cancel b q =>
    intro f hf
    rw [List.mem_singleton.mp hf]
    exact stems_held rfl fun b' hb => held b' hb

theorem naming_setSlot {m : Memory Op} {r : SlotId} {s : AsyncState Op}
    (naming : s.naming = (m.slots r).naming) (i : SlotId) :
    ((m.setSlot r s).slots i).naming = (m.slots i).naming := by
  by_cases hi : i = r
  · subst hi; simp [naming]
  · simp [hi]

theorem naming_drop (m : Memory Op) (r i : SlotId) :
    ((m.drop r).slots i).naming = (m.slots i).naming := by
  by_cases hi : i = r
  · subst hi; simp [Memory.drop, AsyncState.naming]
  · simp [Memory.drop, hi]

theorem naming_recycle (m : Memory Op) (r i : SlotId) :
    ((m.recycle r).slots i).naming = (m.slots i).naming := by
  by_cases hi : i = r
  · subst hi; simp [Memory.recycle, AsyncState.naming]
  · simp [Memory.recycle, hi]

theorem LinkEffect.still {m n : Memory Op} {old new : List Frame} {ev : List Event}
    (used : n.used = m.used) (naming : ∀ i, (n.slots i).naming = (m.slots i).naming)
    (link : ∀ b, (n.blocks b).link = (m.blocks b).link) (aside : ev.all Event.aside = true)
    (stems : ∀ f ∈ new, Stems m old ev f) : LinkEffect m old n new ev := by
  rw [List.all_eq_true] at aside
  refine .quiet used naming link ?_ ?_ ?_ stems
  · intro k b p ps h
    cases aside _ h
  · intro k h
    cases aside _ h
  · intro src reply h
    cases aside _ h

section Effects

variable {m n : Memory Op} {c : Choice Op} {old new : List Frame} {ev : List Event}

theorem stems_hold_submit {m n : Memory Op} {alloc : Bool} {now delay : ℕ} {r : SlotId}
    {p : PortId} {f : Work} (sent : m.submit alloc now r p delay f = .accepted n) :
    n.used = m.used ∧ (∀ i, (n.slots i).naming = (m.slots i).naming) ∧ n.blocks = m.blocks := by
  obtain ⟨t, -, rfl, -⟩ := Memory.submit_accepted sent
  exact ⟨rfl, naming_setSlot rfl, rfl⟩

theorem stems_hold_immediate {m n : Memory Op} {alloc : Bool} {now delay : ℕ} {r : SlotId}
    {p : PortId} {f : Work} (sent : m.submit alloc now r p delay f = .immediate n) :
    n.used = m.used ∧ (∀ i, (n.slots i).naming = (m.slots i).naming) ∧ n.blocks = m.blocks := by
  obtain ⟨rfl, -⟩ := Memory.submit_immediate sent
  exact ⟨rfl, naming_setSlot rfl, rfl⟩

theorem heldFor_caller {f : Frame} {r : SlotId} (slot : f.slot = some r) {b : BlockId}
    (caller : f.caller = some b) : HeldFor [f] b r :=
  ⟨f, List.mem_singleton_self f, caller, slot⟩

theorem Effect.links (effect : Effect .whole m c old n new ev) (whole : ∀ f ∈ old, ¬ f.finds) :
    LinkStep m old n new ev := by
  cases effect with
  | manage _ _ plain =>
    exact .same (.still rfl (fun _ => rfl) (fun _ => rfl) rfl fun f hf =>
      stems_plain (plain f hf))
  | adjusts _ _ plain =>
    exact .same (.still rfl (fun _ => rfl) (fun _ => rfl) rfl fun f hf =>
      stems_plain (plain f hf))
  | @prepare b =>
    refine .same (.still rfl (fun _ => rfl) ?_ rfl (by simp))
    intro b'
    by_cases hb : b' = b
    · subst hb; simp [Memory.setBlock, AsyncBlock.link]
    · simp [Memory.setBlock, hb]
  | returns =>
    exact .same (.quiet rfl (fun _ => rfl) (fun _ => rfl) (by simp) (by simp) (by simp) (by simp))
  | @took _ ran p now t _ plain =>
    refine .same (.still rfl (fun _ => rfl) (fun _ => rfl) ?_ ?_)
    · cases t.item.callback <;> rfl
    · intro f hf
      rcases List.mem_append.mp hf with hf | hf
      · cases hx : t.item.callback <;> simp [hx, Task.frames] at hf <;> subst hf <;>
          exact stems_silent rfl rfl
      · exact stems_plain (plain f hf)
  | beginAccepted began port sent =>
    obtain ⟨hused, hnaming, hblocks⟩ := stems_hold_submit sent
    exact .began began (.still hused hnaming (fun _ => by rw [hblocks]) rfl (stems_alone rfl rfl))
  | beginImmediate began port sent =>
    obtain ⟨hused, hnaming, hblocks⟩ := stems_hold_immediate sent
    exact .began began (.still hused hnaming (fun _ => by rw [hblocks]) rfl
      (stems_above rfl rfl (stems_alone rfl rfl)))
  | beginRefused began =>
    exact .refused began (stems_above rfl rfl (stems_alone rfl rfl))
  | providerBegun began =>
    exact .began began (.still rfl (fun _ => rfl) (fun _ => rfl) rfl (stems_alone rfl rfl))
  | failsBegin =>
    exact .same (.still rfl (fun _ => rfl) (fun _ => rfl) rfl (stems_alone rfl rfl))
  | cleanedFailed =>
    exact .same (.still rfl (fun _ => rfl) (fun _ => rfl) rfl (stems_alone rfl rfl))
  | @drops r b hr =>
    exact .same (.retires ⟨_, List.mem_singleton_self _, .inr rfl⟩
      (stems_above rfl rfl (stems_alone rfl rfl)))
  | @finds a q r e said mode found =>
    refine .same (.still rfl (naming_setSlot rfl) (fun _ => rfl) rfl ?_)
    intro f hf
    rw [List.mem_singleton.mp hf]
    refine ⟨?_, by rintro _ _ _ _ ⟨⟩⟩
    intro b x hb hx
    cases hb
    cases hx
    exact .inr found
  | swaps => exact absurd trivial (whole _ (List.mem_singleton_self _))
  | @settles f b q r reply call early =>
    have hheld : HeldFor [f] b r := by
      rcases call with rfl | ⟨rfl, -⟩ <;> exact heldFor_caller rfl rfl
    refine .same (.still rfl (fun _ => rfl) (fun _ => rfl) rfl (stems_settle hheld ?_))
    intro id size used hq hreply
    rcases early id size used hq with h | h <;> rw [hreply] at h <;> exact absurd h (by decide)
  | @proceeds f f' r slot slot' _ _ _ caller =>
    refine .same (.still rfl (fun _ => rfl) (fun _ => rfl) rfl ?_)
    intro x hx
    rw [List.mem_singleton.mp hx]
    exact stems_held slot' fun b hb => heldFor_caller slot (caller ▸ hb)
  | @provides f f' r op slot slot' _ _ _ caller =>
    refine .same (.still rfl (fun _ => rfl) (fun _ => rfl) rfl ?_)
    intro x hx
    rw [List.mem_singleton.mp hx]
    exact stems_held slot' fun b hb => heldFor_caller slot (caller ▸ hb)
  | scheduleAccepted _ _ sent =>
    obtain ⟨hused, hnaming, hblocks⟩ := stems_hold_submit sent
    exact .same (.still hused hnaming (fun _ => by rw [hblocks]) rfl
      (stems_settle (heldFor_caller rfl rfl) (by rintro _ _ _ ⟨⟩)))
  | scheduleImmediate _ _ sent =>
    obtain ⟨hused, hnaming, hblocks⟩ := stems_hold_immediate sent
    exact .same (.still hused hnaming (fun _ => by rw [hblocks]) rfl
      (stems_above rfl rfl (stems_settle (heldFor_caller rfl rfl) (by rintro _ _ _ ⟨⟩))))
  | finishesAgain =>
    exact .same (.still rfl (fun _ => rfl) (fun _ => rfl) rfl
      (stems_after fun b hb => heldFor_caller rfl hb))
  | finishes =>
    exact .same (.still rfl (naming_setSlot rfl) (fun _ => rfl) rfl
      (stems_after fun b hb => heldFor_caller rfl hb))
  | finishesBlock =>
    refine .same (.still rfl (naming_setSlot rfl) (fun _ => rfl) rfl ?_)
    intro f hf
    rw [List.mem_singleton.mp hf]
    exact stems_held rfl fun b hb => heldFor_caller rfl hb
  | publishesNothing =>
    exact .same (.still rfl (fun _ => rfl) (fun _ => rfl) rfl
      (stems_after fun b hb => heldFor_caller rfl hb))
  | publishAccepted _ _ _ sent =>
    obtain ⟨hused, hnaming, hblocks⟩ := stems_hold_submit sent
    exact .same (.still hused hnaming (fun _ => by rw [hblocks]; rfl) rfl
      (stems_after fun b hb => heldFor_caller rfl hb))
  | @publishImmediate r a next _ _ _ _ _ _ _ _ _ sent =>
    obtain ⟨hused, hnaming, hblocks⟩ := stems_hold_immediate sent
    have hheld : ∀ b, next.caller = some b → HeldFor [.publish r a next] b r := fun b hb =>
      heldFor_caller rfl hb
    exact .same (.still hused hnaming (fun _ => by rw [hblocks]; rfl) rfl
      (stems_above rfl rfl (stems_after hheld)))
  | retiresAgain again =>
    exact .same (.still rfl (fun _ => rfl) (fun _ => rfl) rfl
      (stems_settle (heldFor_caller rfl rfl) fun _ _ _ _ _ => .inl again))
  | retires =>
    exact .same (.retires ⟨_, List.mem_singleton_self _, .inl rfl⟩
      (stems_above rfl rfl (stems_settle (heldFor_caller rfl rfl)
        fun _ _ _ _ _ => .inr (List.mem_singleton_self _))))
  | releases =>
    exact .same (.still (by simp) (naming_drop _ _) (fun _ => rfl) rfl (by simp))
  | releasesLast =>
    exact .same (.still (by simp) (naming_drop _ _) (fun _ => rfl) rfl (stems_alone rfl rfl))
  | recycles => exact .same (.still rfl (naming_recycle _ _) (fun _ => rfl) rfl (by simp))
  | destroys =>
    exact .same (.still rfl (naming_setSlot rfl) (fun _ => rfl) rfl (stems_alone rfl rfl))
  | destroysNothing =>
    exact .same (.still rfl (naming_setSlot rfl) (fun _ => rfl) rfl (stems_alone rfl rfl))
  | _ =>
    exact .same (.still rfl (fun _ => rfl) (fun _ => rfl) rfl (stems_alone rfl rfl))

end Effects

theorem retireSlot_slots (m : Memory Op) (r : SlotId) : (m.retireSlot r).slots =
    Function.update m.slots r { m.slots r with retired := true, block := none } := by
  unfold Memory.retireSlot
  dsimp only
  split <;> rfl

theorem retireSlot_signed {m : Memory Op} {r : SlotId} {b : BlockId}
    (signed : ((m.retireSlot r).blocks b).signed = true) :
    (m.retireSlot r).blocks b = m.blocks b := by
  unfold Memory.retireSlot at signed ⊢
  dsimp only at signed ⊢
  split at signed
  · rfl
  · rename_i a ha
    by_cases hb : b = a
    · subst hb
      simp [Memory.setBlock] at signed
    · simp [Memory.setBlock, hb]

namespace AsyncThreads

variable {limit : ℕ} {s s' : AsyncThreads Op} {i : ℕ} {c : Choice Op} {tr ev : List Event}

structure Links (tr : List Event) (s : AsyncThreads Op) : Prop where
  begun : ∀ r b, (s.memory.slots r).block = some b →
    ∃ p ps, .begun (s.memory.serial r) b p ps ∈ tr
  latest : ∀ b r, (s.memory.blocks b).signed = true → (s.memory.blocks b).slot = some r →
    ∀ k p ps, .begun k b p ps ∈ tr → k ≤ s.memory.serial r
  retired : ∀ r : SlotId, (r : ℕ) < s.memory.used →
    ((s.memory.slots r).retired = true ↔ .retired (s.memory.serial r) ∈ tr)
  calls : ∀ stack ∈ s.threads, ∀ f ∈ stack, ∀ b r, f.caller = some b → f.slot = some r →
    ∃ p ps, .begun (s.memory.serial r) b p ps ∈ tr
  answers : ∀ stack ∈ s.threads, ∀ f ∈ stack, ∀ b q k reply,
    f = .returns (.query (some b) q (some k)) reply → Answered tr b q k reply
  answered : ∀ b q k reply, .returned (.query (some b) q (some k)) reply ∈ tr →
    Answered tr b q k reply

theorem links_start (threads : ℕ) : Links [] (start threads : AsyncThreads Op) := by
  have hnil : ∀ stack ∈ (start threads : AsyncThreads Op).threads, stack = [] := by
    intro stack hmem
    exact (List.mem_replicate.mp hmem).2
  constructor
  · intro r b hblock
    cases hblock
  · intro b r hsigned
    cases hsigned
  · intro r hr
    cases hr
  · intro stack hmem f hf
    rw [hnil stack hmem] at hf
    cases hf
  · intro stack hmem f hf
    rw [hnil stack hmem] at hf
    cases hf
  · intro b q k reply h
    cases h

/-- A call of the activations that are replaced was made with the block that the operation was
begun with. -/
theorem Links.held (links : Links tr s) {old rest : List Frame}
    (hstack : s.threads[i]? = some (old ++ rest)) {b : BlockId} {r : SlotId}
    (held : HeldFor old b r) : ∃ p ps, .begun (s.memory.serial r) b p ps ∈ tr := by
  obtain ⟨f, hf, hcaller, hslot⟩ := held
  exact links.calls _ (List.mem_of_getElem? hstack) f (List.mem_append_left _ hf) b r hcaller hslot

/-- A step that hands out no slot: the stacks. -/
theorem Links.stacks (links : Links tr s) {old rest new : List Frame} {n : Memory Op}
    (hstack : s.threads[i]? = some (old ++ rest))
    (serial : ∀ r, n.serial r = s.memory.serial r)
    (linked : ∀ b r, s.memory.find (some b) = some r → (s.memory.slots r).block = some b)
    (used : ∀ f ∈ old, ∀ r, f.slot = some r → (r : ℕ) < s.memory.used)
    (stems : ∀ f ∈ new, Stems s.memory old ev f) :
    (∀ stack ∈ s.threads.set i (new ++ rest), ∀ f ∈ stack, ∀ b r, f.caller = some b →
      f.slot = some r → ∃ p ps, .begun (n.serial r) b p ps ∈ tr ++ ev) ∧
    ∀ stack ∈ s.threads.set i (new ++ rest), ∀ f ∈ stack, ∀ b q k reply,
      f = .returns (.query (some b) q (some k)) reply → Answered (tr ++ ev) b q k reply := by
  constructor
  · refine frames_moved hstack ?_ ?_
    · intro stack hmem f hf b r hcaller hslot
      obtain ⟨p, ps, hbegun⟩ := links.calls stack hmem f hf b r hcaller hslot
      rw [serial]
      exact ⟨p, ps, List.mem_append_left _ hbegun⟩
    · intro f hf b r hcaller hslot
      have hbegun : ∃ p ps, .begun (s.memory.serial r) b p ps ∈ tr := by
        rcases (stems f hf).calls b r hcaller hslot with hheld | hfind
        · exact links.held hstack hheld
        · exact links.begun r b (linked b r hfind)
      obtain ⟨p, ps, hbegun⟩ := hbegun
      rw [serial]
      exact ⟨p, ps, List.mem_append_left _ hbegun⟩
  · refine frames_moved hstack ?_ ?_
    · intro stack hmem f hf b q k reply heq
      exact (links.answers stack hmem f hf b q k reply heq).mono ev
    · intro f hf b q k reply heq
      obtain ⟨r, rfl, hheld, hshort⟩ := (stems f hf).answers b q k reply heq
      obtain ⟨p, ps, hbegun⟩ := links.held hstack hheld
      refine ⟨⟨p, ps, List.mem_append_left _ hbegun⟩, ?_⟩
      intro id size used' hq hreply
      obtain ⟨f', hf', -, hslot⟩ := hheld
      rcases hshort id size used' hq hreply with hretired | hretired
      · exact List.mem_append_left _ ((links.retired r (used f' hf' r hslot)).mp hretired)
      · exact List.mem_append_right _ hretired

/-- The block lets go of its operation. -/
theorem Links.retire (links : Links tr s) {r : SlotId} {threads : List (List Frame)}
    (hr : (r : ℕ) < s.memory.used)
    (distinct : ∀ x : SlotId, (x : ℕ) < s.memory.used →
      s.memory.serial x = s.memory.serial r → x = r)
    (calls : ∀ stack ∈ threads, ∀ f ∈ stack, ∀ b x, f.caller = some b → f.slot = some x →
      ∃ p ps, .begun ((s.memory.retireSlot r).serial x) b p ps ∈
        tr ++ [.retired (s.memory.serial r)])
    (answers : ∀ stack ∈ threads, ∀ f ∈ stack, ∀ b q k reply,
      f = .returns (.query (some b) q (some k)) reply →
        Answered (tr ++ [.retired (s.memory.serial r)]) b q k reply) :
    Links (tr ++ [.retired (s.memory.serial r)])
      { s with memory := s.memory.retireSlot r, threads := threads } := by
  have hserial := (sameLabels_retireSlot s.memory r).serial
  refine ⟨?_, ?_, ?_, calls, answers, ?_⟩
  · intro x b hblock
    dsimp only at hblock ⊢
    rw [retireSlot_slots] at hblock
    have hx : x ≠ r := by
      rintro rfl
      simp at hblock
    rw [Function.update_of_ne hx] at hblock
    obtain ⟨p, ps, hbegun⟩ := links.begun x b hblock
    rw [hserial]
    exact ⟨p, ps, List.mem_append_left _ hbegun⟩
  · intro b x hsigned hslot k p ps hbegun
    have hsame := retireSlot_signed hsigned
    dsimp only at hsigned hslot ⊢
    rw [hsame] at hsigned hslot
    rw [hserial]
    refine links.latest b x hsigned hslot k p ps ?_
    simpa using hbegun
  · intro x hx
    have hx : (x : ℕ) < s.memory.used := by simpa using hx
    have hretired := links.retired x hx
    dsimp only
    rw [hserial, retireSlot_slots, List.mem_append, List.mem_singleton, Event.retired.injEq]
    by_cases hxr : x = r
    · subst hxr
      simp
    · have hne : s.memory.serial x ≠ s.memory.serial r := fun heq => hxr (distinct x hx heq)
      simp [hxr, hne, hretired]
  · intro b q k reply hreturned
    simp only [List.mem_append, List.mem_singleton, reduceCtorEq, or_false] at hreturned
    exact (links.answered b q k reply hreturned).mono _

theorem Links.effect (links : Links tr s) {old rest new : List Frame} {n : Memory Op}
    (hstack : s.threads[i]? = some (old ++ rest))
    (distinct : ∀ x y : SlotId, (x : ℕ) < s.memory.used → (y : ℕ) < s.memory.used →
      s.memory.serial x = s.memory.serial y → x = y)
    (linked : ∀ b r, s.memory.find (some b) = some r → (s.memory.slots r).block = some b)
    (used : ∀ f ∈ old, ∀ r, f.slot = some r ∨ f.begins = some r → (r : ℕ) < s.memory.used)
    (effect : LinkEffect s.memory old n new ev) :
    Links (tr ++ ev) { s with memory := n, threads := s.threads.set i (new ++ rest) } := by
  have hused : ∀ f ∈ old, ∀ r, f.slot = some r → (r : ℕ) < s.memory.used := fun f hf r hr =>
    used f hf r (.inl hr)
  cases effect with
  | quiet same naming link begins retires returns stems =>
    have hnaming : ∀ r, n.serial r = s.memory.serial r ∧
        (n.slots r).retired = (s.memory.slots r).retired ∧
        (n.slots r).block = (s.memory.slots r).block := by
      intro r
      simpa [AsyncState.naming, Memory.serial] using naming r
    have hlink : ∀ b, (n.blocks b).signed = (s.memory.blocks b).signed ∧
        (n.blocks b).slot = (s.memory.blocks b).slot := by
      intro b
      have hb := link b
      simp only [AsyncBlock.link, Prod.mk.injEq] at hb
      exact ⟨hb.1, hb.2.1⟩
    obtain ⟨hcalls, hanswers⟩ := links.stacks hstack (fun r => (hnaming r).1) linked hused stems
    refine ⟨?_, ?_, ?_, hcalls, hanswers, ?_⟩
    · intro r b hblock
      obtain ⟨p, ps, hbegun⟩ := links.begun r b ((hnaming r).2.2 ▸ hblock)
      dsimp only
      rw [(hnaming r).1]
      exact ⟨p, ps, List.mem_append_left _ hbegun⟩
    · intro b r hsigned hslot k p ps hbegun
      dsimp only
      rw [(hnaming r).1]
      refine links.latest b r ((hlink b).1 ▸ hsigned) ((hlink b).2 ▸ hslot) k p ps ?_
      exact (List.mem_append.mp hbegun).resolve_right (begins k b p ps)
    · intro r hr
      dsimp only
      rw [(hnaming r).1, (hnaming r).2.1, links.retired r (same ▸ hr), List.mem_append]
      simp [retires]
    · intro b q k reply hreturned
      rcases List.mem_append.mp hreturned with h | h
      · exact (links.answered b q k reply h).mono ev
      · exact (links.answers _ (List.mem_of_getElem? hstack) _
          (List.mem_append_left _ (returns _ _ h)) b q k reply rfl).mono ev
  | retires holds stems =>
    rename_i r
    obtain ⟨f, hf, hr⟩ := holds
    have hr := used f hf r hr
    obtain ⟨hcalls, hanswers⟩ := links.stacks hstack
      (sameLabels_retireSlot s.memory r).serial linked hused stems
    exact links.retire hr (fun x hx => distinct x r hx hr) hcalls hanswers

/-- A slot is handed out: its block names the new operation. -/
theorem Links.handOut (links : Links tr s) (serials : Serials tr s) (audit : Audit limit s)
    {a : BlockId} {q : QueueId} {r : SlotId} {n : Memory Op} {id : Option ℕ} {o : Option Op}
    {provider : Option ℕ} {context : ℕ} (began : Began s.memory a q r n id o provider context)
    (p : Bool) (ps : Option PortId × Option PortId) :
    Links (tr ++ [.begun (n.serial r) a p ps]) { s with memory := n } := by
  have hfresh := audit.sound.began_fresh began
  have hserials : ∀ x, x ≠ r → n.serial x = s.memory.serial x := by
    intro x hx
    simp only [Memory.serial, hfresh.others x hx]
  have hidle : s.count r = 0 := by
    obtain ⟨qs, acquired, -, hacquire, -⟩ := began
    exact (audit.sound.picked_idle (Memory.acquire_some hacquire)).1
  have hblocks : n.blocks = Function.update s.memory.blocks a (n.blocks a) ∧
      (n.blocks a).slot = some r ∧ (n.slots r).block = some a := by
    obtain ⟨qs, acquired, -, hacquire, rfl⟩ := began
    have hacquired := Memory.acquire_some hacquire
    simp [Memory.describe, hacquired.blocks, hacquired.slots]
  have hmono : ∀ {k b}, (∃ p ps, .begun k b p ps ∈ tr) →
      ∃ p' ps', .begun k b p' ps' ∈ tr ++ [.begun (n.serial r) a p ps] := by
    rintro k b ⟨p', ps', h⟩
    exact ⟨p', ps', List.mem_append_left _ h⟩
  constructor
  · intro x b hblock
    by_cases hx : x = r
    · subst hx
      rw [hblocks.2.2, Option.some.injEq] at hblock
      exact ⟨p, ps, by simp [hblock]⟩
    · dsimp only at hblock ⊢
      rw [hfresh.others x hx] at hblock
      rw [hserials x hx]
      exact hmono (links.begun x b hblock)
  · intro b x hsigned hslot k p' ps' hbegun
    dsimp only at hsigned hslot ⊢
    by_cases hb : b = a
    · subst hb
      rw [hblocks.2.1, Option.some.injEq] at hslot
      subst hslot
      rcases List.mem_append.mp hbegun with hbegun | hbegun
      · have := serials.bounded _ hbegun k rfl
        rw [hfresh.serial]
        omega
      · simp only [List.mem_singleton, Event.begun.injEq] at hbegun
        exact hbegun.1.le
    · rw [hblocks.1, Function.update_of_ne hb] at hsigned hslot
      have hx : x ≠ r := by
        rintro rfl
        have hlinked := (audit.sound.linked b x hsigned hslot).1
        simp [count, Memory.kept, hlinked] at hidle
      rw [hserials x hx]
      refine links.latest b x hsigned hslot k p' ps' ?_
      simpa [hb] using hbegun
  · intro x hx
    dsimp only at hx ⊢
    rw [List.mem_append]
    by_cases hxr : x = r
    · subst hxr
      have hnot : .retired s.memory.acquired ∉ tr := serials.unborn rfl (le_refl _)
      rw [hfresh.serial, hfresh.retired]
      simp [hnot]
    · have hx := ((hfresh.used x).mp hx).resolve_left hxr
      rw [hserials x hxr, hfresh.others x hxr]
      simpa using links.retired x hx
  · intro stack hmem f hf b x hcaller hslot
    have hx : x ≠ r := by
      rintro rfl
      have hle := Stacks.weight_le_total (Frame.holds x) (show stack ∈ s.threads from hmem)
      have hone := Stacks.le_weight (Frame.holds x) hf
      simp only [count] at hidle
      simp only [Frame.holds, hslot, if_true] at hone
      omega
    dsimp only
    rw [hserials x hx]
    exact hmono (links.calls stack hmem f hf b x hcaller hslot)
  · intro stack hmem f hf b q k reply heq
    exact (links.answers stack hmem f hf b q k reply heq).mono _
  · intro b q k reply hreturned
    simp only [List.mem_append, List.mem_singleton, reduceCtorEq, or_false] at hreturned
    exact (links.answered b q k reply hreturned).mono _

theorem fresh_distinct (serials : Serials tr s) {r : SlotId} {n : Memory Op}
    (fresh : Sound.Fresh s.memory r n) (x y : SlotId) (hx : (x : ℕ) < n.used)
    (hy : (y : ℕ) < n.used) (heq : n.serial x = n.serial y) : x = y := by
  have hold : ∀ z : SlotId, (z : ℕ) < n.used → z ≠ r →
      (z : ℕ) < s.memory.used ∧ n.serial z = s.memory.serial z := by
    intro z hz hne
    exact ⟨((fresh.used z).mp hz).resolve_left hne, by simp only [Memory.serial, fresh.others z hne]⟩
  have hnew := fresh.serial
  by_cases hxr : x = r <;> by_cases hyr : y = r
  · rw [hxr, hyr]
  · obtain ⟨hlt, hserial⟩ := hold y hy hyr
    have := serials.slots y hlt
    rw [hxr, hserial] at heq
    omega
  · obtain ⟨hlt, hserial⟩ := hold x hx hxr
    have := serials.slots x hlt
    rw [hyr, hserial] at heq
    omega
  · obtain ⟨hlt, hserial⟩ := hold x hx hxr
    obtain ⟨hlt', hserial'⟩ := hold y hy hyr
    exact serials.distinct x y hlt hlt' (by rw [← hserial, ← hserial', heq])

theorem frame_used (audit : Audit limit s) {stack : List Frame} (hmem : stack ∈ s.threads)
    {f : Frame} (hf : f ∈ stack) {r : SlotId} (hr : f.slot = some r ∨ f.begins = some r) :
    (r : ℕ) < s.memory.used := by
  rcases hr with hr | hr
  · have hle := Stacks.weight_le_total (Frame.holds r) hmem
    have hone := Stacks.le_weight (Frame.holds r) hf
    simp only [Frame.holds, hr, if_true] at hone
    exact audit_used audit (.inl (by simp only [count]; omega))
  · exact audit.begins _ hmem f hf r hr

theorem Links.ended (links : Links tr s) (fault : Fault) :
    Links (tr ++ [.ended fault]) { s with ended := true } := by
  have hmono : ∀ {k b}, (∃ p ps, .begun k b p ps ∈ tr) →
      ∃ p ps, .begun k b p ps ∈ tr ++ [.ended fault] := by
    rintro k b ⟨p, ps, h⟩
    exact ⟨p, ps, List.mem_append_left _ h⟩
  constructor
  · exact fun r b hblock => hmono (links.begun r b hblock)
  · intro b r hsigned hslot k p ps hbegun
    exact links.latest b r hsigned hslot k p ps (by simpa using hbegun)
  · intro r hr
    simpa using links.retired r hr
  · exact fun stack hmem f hf b r hcaller hslot =>
      hmono (links.calls stack hmem f hf b r hcaller hslot)
  · exact fun stack hmem f hf b q k reply heq =>
      (links.answers stack hmem f hf b q k reply heq).mono _
  · intro b q k reply hreturned
    simp only [List.mem_append, List.mem_singleton, reduceCtorEq, or_false] at hreturned
    exact (links.answered b q k reply hreturned).mono _

theorem Links.step (links : Links tr s) (serials : Serials tr s) (accounted : Accounted s)
    (h : step .whole s (i, c) = some (s', ev)) : Links (tr ++ ev) s' := by
  rcases step_cases h with ⟨fault, rfl, rfl⟩ | ⟨old, rest, new, n, hstack, heffect, -, rfl⟩
  · exact links.ended fault
  have hmem := List.mem_of_getElem? hstack
  have haudit := accounted.audit
  have hwhole : ∀ f ∈ old, ¬ f.finds := fun f hf =>
    accounted.whole _ hmem f (List.mem_append_left _ hf)
  cases heffect.links hwhole with
  | same effect =>
    refine links.effect hstack serials.distinct ?_ ?_ effect
    · exact fun b r hfind => (haudit.sound.find_linked hfind).1
    · exact fun f hf r hr => frame_used haudit hmem (List.mem_append_left _ hf) hr
  | @began a q r n₀ id o provider context _ _ provided ps ev' began effect =>
    have hbegun := links.handOut serials haudit began provided ps
    have hsound := haudit.sound.began (by norm_num) began
    have hdistinct := fresh_distinct serials (haudit.sound.began_fresh began)
    rw [List.append_cons]
    refine hbegun.effect hstack hdistinct ?_ (by simp) effect
    exact fun b x hfind => (hsound.find_linked hfind).1
  | @refused a q r n₀ id o provider context _ provided ps began stems =>
    have hbegun := links.handOut serials haudit began provided ps
    have hsound := haudit.sound.began (by norm_num) began
    have hfresh := haudit.sound.began_fresh began
    have hdistinct := fresh_distinct serials hfresh
    have hr : (r : ℕ) < n₀.used := (hfresh.used r).mpr (.inl rfl)
    obtain ⟨hcalls, hanswers⟩ := hbegun.stacks hstack (sameLabels_retireSlot n₀ r).serial
      (fun b x hfind => (hsound.find_linked hfind).1) (by simp) stems
    rw [List.append_cons]
    exact hbegun.retire hr (fun x hx => hdistinct x r hx hr) hcalls hanswers

theorem reaches_links {ok : AsyncThreads Op → ℕ × Choice Op → Prop} {threads : ℕ}
    (h : Reaches (step .whole) ok (start threads) tr s) : Links tr s := by
  have hall : Accounted s ∧ Serials tr s ∧ Links tr s := by
    refine h.invariant (P := fun tr s => Accounted s ∧ Serials tr s ∧ Links tr s)
      ⟨accounted_start threads, serials_start threads, links_start threads⟩ ?_
    rintro tr s ⟨i, c⟩ t ev ⟨haccounted, hserials, hlinks⟩ - hstep
    exact ⟨haccounted.step hstep, hserials.step haccounted.audit (haccounted.ready i c) hstep,
      hlinks.step hserials haccounted hstep⟩
  exact hall.2.2

/-- A retired operation that is the last one begun with its block: the block names nothing. -/
theorem Links.find_retired (links : Links tr s) (accounted : Accounted s) {b : BlockId}
    {k : ℕ} {p : Bool} {ps : Option PortId × Option PortId}
    (begun : .begun k b p ps ∈ tr) (retired : .retired k ∈ tr)
    (last : ∀ k' p ps, .begun k' b p ps ∈ tr → k' ≤ k) : s.memory.find (some b) = none := by
  by_contra hfound
  obtain ⟨r, hfind⟩ := Option.ne_none_iff_exists'.mp hfound
  have hblock := (accounted.audit.sound.find_linked hfind).1
  obtain ⟨hsigned, hslot⟩ : (s.memory.blocks b).signed = true ∧
      (s.memory.blocks b).slot = some r := by
    simp only [Memory.find] at hfind
    split_ifs at hfind with hsigned
    split at hfind
    · cases hfind
    · rename_i x hslot
      split_ifs at hfind
      cases hfind
      exact ⟨hsigned, hslot⟩
  -- the operation that the block names was begun with it, and none was begun later
  obtain ⟨p', ps', hbegun⟩ := links.begun r b hblock
  have hle := links.latest b r hsigned hslot k p ps begun
  have hge := last _ p' ps' hbegun
  have hserial : s.memory.serial r = k := by omega
  have hused : (r : ℕ) < s.memory.used := by
    refine audit_used accounted.audit (.inl ?_)
    simp only [count, Memory.kept, hblock, Option.isSome_some, if_true]
    omega
  have hflag := (links.retired r hused).mpr (hserial ▸ retired)
  have hlive := (accounted.audit.sound.retired r hused).mpr (by simp [hblock])
  rw [hflag] at hlive
  cases hlive

theorem query_unknown {b : BlockId} {q : Query} {e : Env}
    (nothing : s.memory.find (some b) = none)
    (h : step .whole s (i, .call (.query (some b) q) e) = some (s', ev)) :
    ∃ rest, s'.threads[i]? = some (.returns (.query (some b) q none) q.unknown :: rest) := by
  have hquery : s.memory.call .whole e (.query (some b) q) =
      .next s.memory [.returns (.query (some b) q none) q.unknown] [] := by
    simp only [Memory.call, Memory.query, nothing]
  simp only [step, move, hquery] at h
  split at h
  · rename_i stack _ hstack
    split_ifs at h
    simp only [Option.some.injEq, Prod.mk.injEq] at h
    obtain ⟨rfl, -⟩ := h
    obtain ⟨hlt, -⟩ := List.getElem?_eq_some_iff.mp hstack
    exact ⟨stack, by simp [hlt]⟩
  · cases h

/-- In no run does an operation survive a result call that answers `insufficient_buffer`: unless an
operation was begun with the block since, the block names nothing from then on, and asking for the
size or for the result again answers `E_INVALIDARG`. -/
theorem short_result_retires {threads : ℕ}
    (h : Reaches (step .whole) always (start threads) tr s) {b : BlockId} {k : ℕ}
    {id : Option ℕ} {size : ℕ} {used : Bool}
    (short : .returned (.query (some b) (.result id size used) (some k))
      (.code insufficientBuffer) ∈ tr)
    (last : ∀ k' p ps, .begun k' b p ps ∈ tr → k' ≤ k) :
    s.memory.find (some b) = none ∧ ∀ i e s' ev,
      (∀ out, step .whole s (i, .call (.query (some b) (.resultSize out)) e) = some (s', ev) →
        ∃ rest, s'.threads[i]? = some (.returns (.query (some b) (.resultSize out) none)
          (.code E_INVALIDARG) :: rest)) ∧
      ∀ id' size' used',
        step .whole s (i, .call (.query (some b) (.result id' size' used')) e) = some (s', ev) →
          ∃ rest, s'.threads[i]? = some (.returns (.query (some b) (.result id' size' used') none)
            (.code E_INVALIDARG) :: rest) := by
  have hlinks := reaches_links h
  obtain ⟨⟨p, ps, hbegun⟩, hretired⟩ := hlinks.answered b _ k _ short
  have hfind := hlinks.find_retired (reaches_accounted h) hbegun
    (hretired id size used rfl rfl) last
  exact ⟨hfind, fun i e s' ev => ⟨fun out hstep => query_unknown hfind hstep,
    fun id' size' used' hstep => query_unknown hfind hstep⟩⟩

section Run

/-- An operation is begun and completed, and its result is asked for with a buffer that is too
short, and then its size. -/
def shortResult : List (ℕ × Choice Unit) :=
  [(0, .call (.createQueue .immediate .immediate) {}), (0, .go {}),
    (0, .call (.prepare 0 (some 0) none) {}), (0, .call (.begin (some 0) 1 ()) {}), (0, .go {}),
    (0, .answer (.returned 5)), (0, .go {}), (0, .go {}), (0, .go {}), (0, .go {}),
    (0, .call (.query (some 0) takes) {}), (0, .go {}), (0, .answer (.raised insufficientBuffer)),
    (0, .go {}), (0, .go {}), (0, .go {}), (0, .go {}), (0, .answer (.returned 0)), (0, .go {}),
    (0, .go {}), (0, .go {}),
    (0, .call (.query (some 0) (.resultSize true)) {}), (0, .go {})]

theorem shortResult_trace : (execute (step .whole) (start 1) shortResult).map Prod.snd =
    some ([.returned .queue (.flag true), .begun 0 0 false (some 0, some 1),
        .queued 0 .perform 0, .ran 0 .perform 0, .worked 0, .finished 0 S_OK,
        .returned (.begin (some 0)) (.code S_OK), .found 0, .retired 0, .disposed 0,
        .recycled 0] ++
      .returned (.query (some 0) takes (some 0)) (.code insufficientBuffer) ::
        [.returned (.query (some 0) (.resultSize true) none) (.code E_INVALIDARG)]) := by
  decide

/-- After the short buffer the block names nothing. -/
theorem short_result_retires_once :
    ∃ (s : AsyncThreads Unit) (tr : List Event), Reaches (step .whole) always (start 1) tr s ∧
      s.memory.find (some 0) = none := by
  obtain ⟨⟨s, tr⟩, hrun, htr⟩ := Option.map_eq_some_iff.mp shortResult_trace
  dsimp only at htr
  subst htr
  have h := reaches_of_run hrun
  refine ⟨s, _, h, (short_result_retires (b := 0) (k := 0) h
    (List.mem_append_right _ List.mem_cons_self) ?_).1⟩
  intro k' p ps hbegun
  simp at hbegun
  omega

/-- It is not so that the size is still answered after a buffer that was too short. -/
theorem short_result_forgets_size :
    ¬ ∀ (tr : List Event) (s : AsyncThreads Unit), Reaches (step .whole) always (start 1) tr s →
      ∀ before k after, tr = before ++
          .returned (.query (some 0) takes (some k)) (.code insufficientBuffer) :: after →
        (∀ j, .retired j ∉ after) → ∀ k' reply,
          .returned (.query (some 0) (.resultSize true) k') reply ∈ after →
            ∃ size, reply = .size S_OK size := by
  intro hclaim
  obtain ⟨⟨s, tr⟩, hrun, htr⟩ := Option.map_eq_some_iff.mp shortResult_trace
  dsimp only at htr
  obtain ⟨size, hsize⟩ := hclaim tr s (reaches_of_run hrun) _ 0 _ htr (by simp) none
    (.code E_INVALIDARG) (by simp)
  cases hsize

end Run

end AsyncThreads

end IW4x.Gdk
