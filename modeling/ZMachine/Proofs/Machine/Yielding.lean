/-
# The iteration cap is only a yield

A run that has executed as many blocks as the iteration cap allows yields: it asks its host for
housekeeping, which is to say for nothing, and the next run goes on.  So a host that only lets the
machine go on comes to the same first real result under every cap, whatever it replies at the
yields.

Runs under different caps are cut at different places, but they are made of the same blocks.
`Comes` says without any cap what becomes of a machine block after block; that running again and
again arrives there is shown in both directions, and it is the same under another cap because no
block looks at the cap.

* `Arrives` : running again and again comes to a first result that is not a yield;
* `Comes` : what executing block after block comes to;
* `Arrives.comes` and `Comes.arrives` : the two agree, under any cap and with any replies;
* `arrives_withCap` : so under another cap the machine arrives at the same.
-/
import ZMachine.Proofs.Machine.Interrupt
import ZMachine.Proofs.Machine.Suspension
import ZMachine.Proofs.Machine.Uncapped

namespace ZMachine
namespace Machine

open Moment (leftover taken runStory_run runStory_of_finished)

/-! ## Running again and again -/

/-- The machine after its host has given some replies, each with its slot. -/
def answered (m : Machine) (given : List (Nat × Reply)) : Machine :=
  given.foldl (fun m reply => m.answer reply.1 reply.2) m

/-- Replies do not change anything else. -/
theorem answered_eq (m : Machine) (given : List (Nat × Reply)) :
    ∃ replies, m.answered given = { m with replies } := by
  induction given generalizing m with
  | nil => exact ⟨m.replies, rfl⟩
  | cons reply given ih =>
      obtain ⟨replies, hreplies⟩ := ih (m.answer reply.1 reply.2)
      exact ⟨replies, hreplies⟩

/-- A run ended with nothing to ask for but housekeeping. -/
def Yields (r : Except Stop Unit × Machine) : Prop :=
  r.1 = .ok () ∧ r.2.request = some .housekeeping

/-- **The first result that is not a yield.**  The machine is run, and as long as the run yields, its
host replies what it likes, `given i` at the yield with number `i`, and runs the machine again. -/
inductive Arrives :
    (Nat → List (Nat × Reply)) → Machine → Except Stop Unit × Machine → Prop
  | now {given : Nat → List (Nat × Reply)} {m : Machine} (h : ¬ Yields m.run) :
      Arrives given m m.run
  | later {given : Nat → List (Nat × Reply)} {m : Machine} {s : Except Stop Unit × Machine}
      (h : Yields m.run)
      (hs : Arrives (fun i => given (i + 1)) (m.run.2.answered (given 0)) s) : Arrives given m s

/-! ## Runs as blocks -/

/-- A fault at the end of a run stops the machine for good. -/
def halting : Except Stop Unit × Machine → Except Stop Unit × Machine
  | (.error (.fault f), m) => (.error (.fault f), { m with halted := some f })
  | r => r

/-- What a run comes to after an action, with a number of blocks left. -/
def runOn (blocks : Nat) : Except Stop Flow × Machine → Except Stop Unit × Machine
  | (.ok .suspend, m) => (.ok (), m)
  | (.ok _, m) => halting ((runBlocks blocks).run m)
  | (.error e, m) => halting (.error e, m)

/-- Executes the block at the program counter. -/
def runBlock : Exec Flow := do
  let block ← fetchBlock
  runInstructions block.instructions

/-- Several blocks begin with one. -/
theorem runBlocks_succ_run (blocks : Nat) (m : Machine) :
    halting ((runBlocks (blocks + 1)).run m) = runOn blocks (runBlock.run m) := by
  unfold runBlocks runBlock
  rw [run_bind, run_bind]
  rcases fetchBlock.run m with ⟨e | block, m₁⟩
  · rfl
  · dsimp only
    rw [run_bind]
    rcases (runInstructions block.instructions).run m₁ with ⟨e | flow, m₂⟩
    · rfl
    · cases flow <;> rfl

/-- A run begins with the work left over. -/
theorem run_eq_runOn {m : Machine} (hhalted : m.halted = none) (hfinished : m.finished = false) :
    m.run = runOn m.config.iterationCap ((leftover m.completion).run (taken m)) := by
  have hrun : m.run = halting (runStory.run m) := by
    rw [run, hhalted]
    rcases runStory.run m with ⟨(f | _) | _, m'⟩ <;> rfl
  rw [hrun, runStory_run hfinished]
  rcases (leftover m.completion).run (taken m) with ⟨e | flow, m₁⟩
  · rfl
  · cases flow <;> rfl

/-- A run goes on with blocks unless the host is asked. -/
theorem runOn_of_ne_suspend {flow : Flow} (h : flow ≠ .suspend) (blocks : Nat) (m : Machine) :
    runOn blocks (.ok flow, m) = halting ((runBlocks blocks).run m) := by
  cases flow with
  | suspend => exact absurd rfl h
  | next => rfl
  | jump => rfl

/-! ## Going on -/

/-- An action ends well, and if control goes to the host it is asked for nothing. -/
def GoesOn (r : Except Stop Flow × Machine) : Prop :=
  ∃ flow, r.1 = .ok flow ∧ (flow = .suspend → r.2.request = some .housekeeping)

/-- The machine without what its host is asked for and has replied. -/
def rested (m : Machine) : Machine :=
  { m with request := none, replies := [] }

theorem rested_eq {m : Machine} (hrequest : m.request = none) (hreplies : m.replies = []) :
    m.rested = m := by
  unfold rested
  rw [← hrequest, ← hreplies]

/-- The machine is in the middle of a run, under an iteration cap. -/
structure Ready (cap : Nat) (m : Machine) : Prop where
  calm : m.Calm
  halted : m.halted = none
  cap : m.config.iterationCap = cap

/-- Stack, memory, program counter, request and replies have no part in that. -/
theorem Ready.same {cap : Nat} {m m' : Machine} (h : Ready cap m) (hparked : m'.parked = m.parked)
    (hcompletion : m'.completion = m.completion) (hfinished : m'.finished = m.finished)
    (hhalted : m'.halted = m.halted) (hconfig : m'.config = m.config) : Ready cap m' where
  calm :=
    { parked := fun parked hp => h.calm.parked parked (hparked.symm.trans hp)
      completion := hcompletion.trans h.calm.completion
      finished := hfinished.trans h.calm.finished }
  halted := hhalted.trans h.halted
  cap := (congrArg Config.iterationCap hconfig).trans h.cap

/-- An action that goes on leaves the machine in the middle of a run, and the host has no part in it
unless it is asked. -/
structure Poised (cap : Nat) (r : Except Stop Flow × Machine) : Prop where
  ready : GoesOn r → Ready cap r.2
  rested : ∀ flow, r.1 = .ok flow → flow ≠ .suspend → r.2.rested = r.2

/-- **In the middle of a run an action stays there.** -/
theorem Leaves.ready {cap : Nat} {m : Machine} {r : Except Stop Flow × Machine} (h : Leaves m r)
    (hm : Ready cap m) (hr : GoesOn r) : Ready cap r.2 := by
  obtain ⟨flow, hflow, hrequest⟩ := hr
  have hsettled := h.settled hm.calm
  have hcompletion : r.2.completion = none := by
    by_cases hsuspend : r.1 = .ok .suspend
    · -- only the absence of work fits a request for housekeeping
      obtain ⟨request, hsome, hfits⟩ := hsettled.waits hsuspend
      rw [hrequest (Except.ok.inj (hflow.symm.trans hsuspend))] at hsome
      cases hsome
      exact hfits
    · exact (hsettled.calm hsuspend).completion
  have hunfinished : r.2.finished = false := by
    refine (h.finished.resolve_right ?_).trans hm.calm.finished
    rintro ⟨hsuspend, hquit⟩
    rw [hrequest (Except.ok.inj (hflow.symm.trans hsuspend))] at hquit
    cases hquit
  have hconfig : r.2.config = m.config := congrArg Equipment.config h.equipment
  exact
    { calm := ⟨hsettled.orderly.parked, hcompletion, hunfinished⟩
      halted := h.halted.trans hm.halted
      cap := (congrArg Config.iterationCap hconfig).trans hm.cap }

theorem Leaves.poised {cap : Nat} {m : Machine} {r : Except Stop Flow × Machine} (h : Leaves m r)
    (hm : Ready cap m) (hrequest : m.request = none) (hreplies : m.replies = []) :
    Poised cap r := by
  refine ⟨h.ready hm, fun flow hflow hne => rested_eq ?_ (h.unanswered hreplies)⟩
  refine (h.unasked fun hsuspend => hne ?_).1.trans hrequest
  exact Except.ok.inj (hflow.symm.trans hsuspend)

/-- The rest of a block. -/
theorem poised_runInstructions (rest : List Instruction) {cap : Nat} {m : Machine}
    (hm : Ready cap m) (hrested : m.rested = m) : Poised cap ((runInstructions rest).run m) := by
  induction rest generalizing m with
  | nil => exact ⟨fun _ => hm, fun _ _ _ => hrested⟩
  | cons ins rest ih =>
      obtain ⟨codec, -, hleaves⟩ := (spells_execute ins).leaves { m with pc := ins.next }
      have hstart : Ready cap { m with pc := ins.next, codec } :=
        hm.same rfl rfl rfl rfl rfl
      have hpoised := hleaves.poised hstart (congrArg Machine.request hrested).symm
        (congrArg Machine.replies hrested).symm
      rw [runInstructions_cons_run]
      revert hpoised
      rcases (execute ins).run { m with pc := ins.next } with ⟨e | flow, m'⟩
      · exact id
      · cases flow with
        | next =>
            intro hpoised
            exact ih (hpoised.ready ⟨.next, rfl, nofun⟩) (hpoised.rested .next rfl nofun)
        | jump => exact id
        | suspend => exact id

/-- **So does a block.** -/
theorem poised_runBlock {cap : Nat} {m : Machine} (hm : Ready cap m) (hrested : m.rested = m) :
    Poised cap (runBlock.run m) := by
  obtain ⟨blocks, codec, hfetch⟩ := fetchBlock_run_snd m
  have hfetched : Ready cap { m with blocks, codec } := hm.same rfl rfl rfl rfl rfl
  have hrestedFetched : rested { m with blocks, codec } = { m with blocks, codec } :=
    rested_eq (congrArg Machine.request hrested).symm (congrArg Machine.replies hrested).symm
  unfold runBlock
  rw [run_bind]
  revert hfetch
  rcases fetchBlock.run m with ⟨e | block, m₁⟩
  · rintro rfl
    exact ⟨fun _ => hfetched, fun _ _ _ => hrestedFetched⟩
  · rintro rfl
    exact poised_runInstructions block.instructions hfetched hrestedFetched

/-- **So does the work left over**, after which the replies are forgotten. -/
theorem poised_leftover {cap : Nat} {m : Machine} (hm : Ready cap m) (hrequest : m.request = none)
    (completion : Option Completion) : Poised cap ((leftover completion).run m) := by
  cases completion with
  | none =>
      have hcleared : Ready cap { m with replies := [] } := hm.same rfl rfl rfl rfl rfl
      exact ⟨fun _ => hcleared, fun _ _ _ => rested_eq hrequest rfl⟩
  | some completion =>
      obtain ⟨parked, hfits, hleaves⟩ := leaves_resume m completion
      have hparked : Ready cap { m with parked } :=
        ⟨⟨hfits hm.calm.parked, hm.calm.completion, hm.calm.finished⟩, hm.halted, hm.cap⟩
      have hready := hleaves.ready hparked
      obtain ⟨replies, hleftover, hreplies⟩ := Moment.leftover_run completion m
      rw [hleftover]
      refine ⟨fun hr => (hready hr).same rfl rfl rfl rfl rfl,
        fun flow hflow hne => rested_eq ?_ (hreplies flow hflow)⟩
      refine (hleaves.unasked fun hsuspend => ?_).1.trans hrequest
      exact hne (Except.ok.inj (hflow.symm.trans hsuspend))

/-! ## Runs that go on -/

/-- The block after an action. -/
def following (r : Except Stop Flow × Machine) : Except Stop Flow × Machine :=
  runBlock.run r.2.rested

theorem Poised.following {cap : Nat} {r : Except Stop Flow × Machine} (h : Poised cap r)
    (hr : GoesOn r) : Poised cap (following r) :=
  poised_runBlock ((h.ready hr).same rfl rfl rfl rfl rfl) rfl

/-- A run in the middle of another one goes on with the next block. -/
theorem run_of_ready {cap : Nat} {m : Machine} (hm : Ready (cap + 1) m) :
    m.run = runOn cap (runBlock.run m.rested) := by
  have hleftover : (leftover m.completion).run (taken m) = (.ok .next, m.rested) := by
    have htaken : taken m = { m with request := none } := by
      unfold taken
      rw [← hm.calm.completion]
    rw [hm.calm.completion, htaken]
    rfl
  rw [run_eq_runOn hm.halted hm.calm.finished, hleftover, hm.cap]
  exact runBlocks_succ_run cap m.rested

/-- Whatever the host has replied. -/
theorem run_answered {cap : Nat} {m : Machine} (hm : Ready (cap + 1) m)
    (given : List (Nat × Reply)) :
    (m.answered given).run = runOn cap (runBlock.run m.rested) := by
  obtain ⟨replies, hanswered⟩ := answered_eq m given
  have hready : Ready (cap + 1) { m with replies } := hm.same rfl rfl rfl rfl rfl
  rw [hanswered]
  exact run_of_ready hready

/-- **Where an action goes on**, the run goes on with the next block if there is one left, and
otherwise it yields and the next run does. -/
theorem runOn_of_goesOn {cap : Nat} {r : Except Stop Flow × Machine} (hr : Poised (cap + 1) r)
    (hgoes : GoesOn r) (blocks : Nat) :
    (∃ left < blocks, runOn blocks r = runOn left (following r)) ∨
      Yields (runOn blocks r) ∧
        ∀ given, ((runOn blocks r).2.answered given).run = runOn cap (following r) := by
  have hready := hr.ready hgoes
  have hrested := hr.rested
  obtain ⟨result, m⟩ := r
  obtain ⟨flow, rfl, hrequest⟩ := hgoes
  by_cases hsuspend : flow = .suspend
  · subst hsuspend
    exact Or.inr ⟨⟨rfl, hrequest rfl⟩, run_answered hready⟩
  · cases blocks with
    | zero =>
        have hasked : Ready (cap + 1) { m with request := some .housekeeping } :=
          hready.same rfl rfl rfl rfl rfl
        rw [runOn_of_ne_suspend hsuspend]
        exact Or.inr ⟨⟨rfl, rfl⟩, run_answered hasked⟩
    | succ left =>
        refine Or.inl ⟨left, left.lt_succ_self, ?_⟩
        rw [runOn_of_ne_suspend hsuspend, runBlocks_succ_run, Machine.following,
          hrested flow rfl hsuspend]

/-- Where it does not, the run is over. -/
theorem runOn_of_not_goesOn {r : Except Stop Flow × Machine} (h : ¬ GoesOn r) (blocks : Nat) :
    runOn blocks r = runOn 0 r ∧ ¬ Yields (runOn blocks r) := by
  rcases r with ⟨(f | _) | flow, m⟩
  · exact ⟨rfl, nofun⟩
  · exact ⟨rfl, nofun⟩
  · have hsuspend : flow = .suspend := by
      by_contra hne
      exact h ⟨flow, rfl, fun hflow => absurd hflow hne⟩
    subst hsuspend
    exact ⟨rfl, fun hyields => h ⟨.suspend, rfl, fun _ => hyields.2⟩⟩

/-! ## Block after block -/

/-- What an action comes to block after block: its own result if it does not go on, and otherwise
what the following block comes to. -/
inductive Comes : Except Stop Flow × Machine → Except Stop Unit × Machine → Prop
  | last {r : Except Stop Flow × Machine} (h : ¬ GoesOn r) : Comes r (runOn 0 r)
  | more {r : Except Stop Flow × Machine} {s : Except Stop Unit × Machine} (h : GoesOn r)
      (hs : Comes (following r) s) : Comes r s

/-- **Running again and again arrives there**, under any cap and whatever the replies. -/
theorem Comes.arrives {r : Except Stop Flow × Machine} {s : Except Stop Unit × Machine}
    (h : Comes r s) {cap : Nat} (hr : Poised (cap + 1) r) {m : Machine} {blocks : Nat}
    (hrun : m.run = runOn blocks r) (given : Nat → List (Nat × Reply)) : Arrives given m s := by
  -- a run that yields on the way is followed by one with all its blocks left
  induction h generalizing m blocks given with
  | last hlast =>
      obtain ⟨hsame, hyields⟩ := runOn_of_not_goesOn hlast blocks
      rw [← hrun] at hsame hyields
      rw [← hsame]
      exact .now hyields
  | more hgoes _ ih =>
      have hnext := hr.following hgoes
      rcases runOn_of_goesOn hr hgoes blocks with ⟨left, -, hon⟩ | ⟨hyields, hagain⟩
      · exact ih hnext (hrun.trans hon) given
      · rw [← hrun] at hyields hagain
        exact .later hyields (ih hnext (hagain _) _)

/-- A run that does not yield gets there by itself. -/
theorem comes_of_not_yields {cap blocks : Nat} {r : Except Stop Flow × Machine}
    (hr : Poised (cap + 1) r) (h : ¬ Yields (runOn blocks r)) : Comes r (runOn blocks r) := by
  induction blocks using Nat.strongRecOn generalizing r with
  | _ blocks ih =>
    by_cases hgoes : GoesOn r
    · rcases runOn_of_goesOn hr hgoes blocks with ⟨left, hleft, hon⟩ | ⟨hyields, -⟩
      · rw [hon] at h ⊢
        exact .more hgoes (ih left hleft (hr.following hgoes) h)
      · exact absurd hyields h
    · rw [(runOn_of_not_goesOn hgoes blocks).1]
      exact .last hgoes

/-- A run that yields leaves the rest of the way to the next one. -/
theorem comes_of_yields {cap blocks : Nat} {r : Except Stop Flow × Machine}
    {s : Except Stop Unit × Machine} {given : List (Nat × Reply)} (hr : Poised (cap + 1) r)
    (h : Yields (runOn blocks r))
    (hs : ∀ r', Poised (cap + 1) r' →
      ((runOn blocks r).2.answered given).run = runOn cap r' → Comes r' s) : Comes r s := by
  induction blocks using Nat.strongRecOn generalizing r with
  | _ blocks ih =>
    by_cases hgoes : GoesOn r
    · have hnext := hr.following hgoes
      refine .more hgoes ?_
      rcases runOn_of_goesOn hr hgoes blocks with ⟨left, hleft, hon⟩ | ⟨-, hagain⟩
      · rw [hon] at h hs
        exact ih left hleft hnext h hs
      · exact hs _ hnext (hagain given)
    · exact absurd h (runOn_of_not_goesOn hgoes blocks).2

/-- **Running again and again arrives nowhere else.** -/
theorem Arrives.comes {given : Nat → List (Nat × Reply)} {m : Machine}
    {s : Except Stop Unit × Machine} (h : Arrives given m s) {cap blocks : Nat}
    {r : Except Stop Flow × Machine} (hr : Poised (cap + 1) r) (hrun : m.run = runOn blocks r) :
    Comes r s := by
  induction h generalizing r blocks with
  | now hyields =>
      rw [hrun] at hyields ⊢
      exact comes_of_not_yields hr hyields
  | later hyields _ ih =>
      rw [hrun] at hyields ih
      exact comes_of_yields hr hyields fun r' hr' => ih hr'

/-! ## Another cap -/

theorem capless_runBlock : Capless runBlock :=
  capless_bind capless_fetchBlock fun block => capless_runInstructions block.instructions

/-- **What blocks come to does not depend on the cap.** -/
theorem Comes.withCap {r : Except Stop Flow × Machine} {s : Except Stop Unit × Machine}
    (h : Comes r s) (cap : Nat) : Comes (r.1, r.2.withCap cap) (s.1, s.2.withCap cap) := by
  induction h with
  | @last r hlast =>
      have hend : ((runOn 0 r).1, (runOn 0 r).2.withCap cap) = runOn 0 (r.1, r.2.withCap cap) := by
        rcases r with ⟨(f | _) | flow, m⟩
        · rfl
        · rfl
        · cases flow <;> rfl
      rw [hend]
      exact .last hlast
  | @more r s hgoes _ ih =>
      refine .more hgoes ?_
      have hnext := capless_runBlock r.2.rested cap
      unfold following at ih ⊢
      rw [← hnext] at ih
      exact ih

/-- A machine that has halted or quit has only one result left, under every cap. -/
theorem arrives_withCap_of_idle {m : Machine} (h : m.halted ≠ none ∨ m.finished = true)
    {given given' : Nat → List (Nat × Reply)} {s : Except Stop Unit × Machine}
    (hs : Arrives given m s) (cap : Nat) :
    Arrives given' (m.withCap cap) (s.1, s.2.withCap cap) := by
  have hrun : (m.withCap cap).run = (m.run.1, m.run.2.withCap cap) ∧ ¬ Yields m.run := by
    unfold Machine.run
    cases hhalted : m.halted with
    | some f =>
        have hsame : (m.withCap cap).halted = some f := hhalted
        rw [hsame]
        exact ⟨rfl, nofun⟩
    | none =>
        have hfinished : m.finished = true := h.resolve_left fun hne => hne hhalted
        have hsame : (m.withCap cap).halted = none := hhalted
        rw [hsame, runStory_of_finished hfinished, runStory_of_finished (by exact hfinished)]
        exact ⟨rfl, nofun⟩
  cases hs with
  | now _ =>
      have hyields : ¬ Yields (m.withCap cap).run := by
        rw [hrun.1]
        exact hrun.2
      rw [← hrun.1]
      exact .now hyields
  | later hyields _ => exact absurd hyields hrun.2

/-- **The iteration cap is only a yield.**  Take any machine that a host can bring about from any
image, run it again and again under an iteration cap that allows at least one block, and reply what
you like where it yields.  If that arrives at a result that is not a yield, then it does so under
every other such cap and with any other replies to the yields, at the same result and at a machine
that is the same but for the cap.  Random numbers are drawn from the same source, any one, and the
same generators of it are started from entropy. -/
theorem arrives_withCap {image : Array UInt8} {config : Config} {m : Machine}
    (h : Reachable image config m) {cap₁ cap₂ : Nat} (hcap₁ : 1 ≤ cap₁) (hcap₂ : 1 ≤ cap₂)
    {given₁ given₂ : Nat → List (Nat × Reply)} {s : Except Stop Unit × Machine}
    (hs : Arrives given₁ (m.withCap cap₁) s) :
    Arrives given₂ (m.withCap cap₂) (s.1, s.2.withCap cap₂) := by
  by_cases hidle : m.halted ≠ none ∨ m.finished = true
  · exact arrives_withCap_of_idle (m := m.withCap cap₁) hidle hs cap₂
  · have hhalted : m.halted = none := by
      by_contra hne
      exact hidle (Or.inl hne)
    have hfinished : m.finished = false := by
      by_contra hne
      exact hidle (Or.inr (by simpa using hne))
    have hready : ∀ cap, Ready cap (taken (m.withCap cap)) :=
      fun cap => ⟨⟨h.orderly.parked, rfl, hfinished⟩, hhalted, rfl⟩
    have hpoised : ∀ cap, Poised cap ((leftover m.completion).run (taken (m.withCap cap))) :=
      fun cap => poised_leftover (hready cap) rfl m.completion
    have hrun : ∀ cap, (m.withCap cap).run
        = runOn cap ((leftover m.completion).run (taken (m.withCap cap))) :=
      fun cap => run_eq_runOn (m := m.withCap cap) hhalted hfinished
    obtain ⟨blocks₁, rfl⟩ := Nat.exists_eq_add_of_le' hcap₁
    obtain ⟨blocks₂, rfl⟩ := Nat.exists_eq_add_of_le' hcap₂
    have hcomes := (hs.comes (hpoised _) (hrun _)).withCap (blocks₂ + 1)
    have hleftover := capless_leftover m.completion (taken (m.withCap (blocks₁ + 1))) (blocks₂ + 1)
    rw [← hleftover] at hcomes
    exact hcomes.arrives (hpoised _) (hrun _) given₂

end Machine

namespace Moment

open Machine

/-- The machine whose host says that the time of the routine's key has run out. -/
def expiredMachine : Machine :=
  waitingMachine.answer 0 (.number (-1))

theorem reachable_expiredMachine :
    Reachable throwingImage { iterationCap := 2, random := .lowest } expiredMachine := by
  have hwaiting :
      Reachable throwingImage { iterationCap := 2, random := .lowest } throwingMachine.run.2 :=
    .run (.load rfl)
  rw [run_snd_of_leads (Relation.ReflTransGen.mono (fun _ _ h => h.2) _ _ leads_waitingMachine)]
    at hwaiting
  exact .attend hwaiting (.answer _ 0 (.number (-1)))

/-- With two blocks a run comes to the caller's key. -/
theorem run_expiredMachine : (expiredMachine.withCap 2).run = (.ok (), strayMachine) := by
  refine run_of_leads ?_ rfl
  rw [show begin (expiredMachine.withCap 2) = ⟨timedOutMachine, .fetching 2⟩ from rfl]
  exact leads_strayMachine

/-- With one block it yields after the throw, while an input is parked. -/
theorem run_expiredMachine_one :
    (expiredMachine.withCap 1).run
      = (.ok (), { thrownMachine.withCap 1 with request := some .housekeeping }) := by
  refine run_of_leads ?_ rfl
  have hbegin : begin (expiredMachine.withCap 1) = ⟨timedOutMachine.withCap 1, .fetching 1⟩ := rfl
  have hfetch : step ⟨timedOutMachine.withCap 1, .fetching 1⟩
      = ⟨{ timedOutMachine.withCap 1 with blocks := { decoded := 3 } },
          .executing [throwing] 0⟩ :=
    step_fetching_of_dynamic ⟨0x55, [throwing]⟩ Std.HashMap.getElem?_empty (by decide) rfl
  have hthrow : step ⟨{ timedOutMachine.withCap 1 with blocks := { decoded := 3 } },
      .executing [throwing] 0⟩ = ⟨thrownMachine.withCap 1, .fetching 0⟩ := rfl
  rw [hbegin]
  exact .head hfetch.symm <| .head hthrow.symm <| .single rfl

end Moment

namespace Machine

open Moment

/-- So with one block the machine arrives at the caller's key as well, although its host says at the
yield that time has run out once more. -/
theorem arrives_withCap_expiredMachine :
    Reachable throwingImage { iterationCap := 2, random := .lowest } expiredMachine ∧ 1 ≤ 2 ∧
      Yields (expiredMachine.withCap 1).run ∧
      Arrives (fun _ => []) (expiredMachine.withCap 2) (.ok (), strayMachine) ∧
      Arrives (fun _ => [(0, .number (-1))]) (expiredMachine.withCap 1)
        (.ok (), strayMachine.withCap 1) := by
  have htwo : Arrives (fun _ => []) (expiredMachine.withCap 2) (.ok (), strayMachine) := by
    rw [← run_expiredMachine]
    apply Arrives.now
    rw [run_expiredMachine]
    nofun
  have hyields : Yields (expiredMachine.withCap 1).run := by
    rw [run_expiredMachine_one]
    exact ⟨rfl, rfl⟩
  exact ⟨reachable_expiredMachine, by decide, hyields, htwo,
    arrives_withCap reachable_expiredMachine (by decide) (by decide) htwo⟩

end Machine
end ZMachine
