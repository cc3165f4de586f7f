/-
# Branches that are taken

The target of a branch is computed when its instruction is decoded: two less than the offset from
the end of the branch data, as for a jump, but never below zero.  Whether it is in the story is
checked by the next fetch.  So a branch past the end of the image stops the machine as a jump there
does, before anything else is executed, but a branch below address zero goes on in the header, where
a jump stops the machine.

* `Branch.offset` : the offset that branch data hold;
* `Obeys` : an action that leaves the sequence of instructions goes to a target, or leaves a
  branch over;
* `Moment.Takes` : a branch is taken, by its instruction, after the reply of the host, or for the
  save that is restored;
* `Moment.taken_branch_arrives` : where a branch leads and when the machine halts there;
* `Moment.taken_branch_astray` : a branch below address zero.
-/
import ZMachine.Proofs.Machine.Interrupt
import ZMachine.Proofs.Machine.OutsideStory
import ZMachine.Proofs.Machine.Restore
import ZMachine.Proofs.Machine.Yielding

namespace ZMachine

open Memory (SameImage)

/-! ## Branch data -/

namespace Branch

/-- The offset that the branch data at an address hold. -/
def offset (m : Memory) (address : Nat) : Int :=
  let first := m.byteAt address
  if first.toNat / 64 % 2 = 1 then (first.toNat % 64 : Nat)
  else signed14 (first.toNat % 64 * 256 + (m.byteAt (address + 1)).toNat)

/-- The offset counts from the end of the branch data. -/
theorem target_read (m : Memory) (address : Nat) :
    (read m address).1.target = targetOf (read m address).2 (offset m address) := by
  unfold read offset
  dsimp only
  split <;> rfl

/-- Any offset but zero and one leads to an address. -/
theorem target_of_read {m : Memory} {address stop : Nat} {b : Branch}
    (hread : read m address = (b, stop)) (hfalse : offset m address ≠ 0)
    (htrue : offset m address ≠ 1) :
    b.target = .address (stop + offset m address - 2).toNat := by
  have htarget := target_read m address
  rw [hread] at htarget
  rw [htarget, targetOf, if_neg hfalse, if_neg htrue]

end Branch

theorem Op.hasText_of_branches {op : Op} {version : UInt8} (h : op.branches version) :
    op.hasText = false := by
  cases op <;> first | rfl | cases h

/-- The result of a save or restore goes to a variable or to a branch. -/
theorem Op.stores_of_branches {op : Op} {version : UInt8} (h : op.branches version)
    (hop : op = .save ∨ op = .restore) : op.stores version = false := by
  have hversion : version ≤ 3 := by
    obtain rfl | rfl := hop <;> exact of_decide_eq_true h
  have hnot : ¬ 4 ≤ version := by
    rw [UInt8.le_iff_toNat_le] at hversion ⊢
    exact Nat.not_le.mpr (Nat.lt_succ_of_le hversion)
  obtain rfl | rfl := hop <;> exact decide_eq_false hnot

theorem Instruction.branch_of_decodeBody {version : UInt8} {m : Memory} {address : Nat}
    {ins : Instruction} {b : Branch} (h : decodeBody version m address = .ok ins)
    (hbranch : ins.branch = some b) :
    ins.op.branches version ∧ (∃ a, Branch.read m a = (b, ins.next)) ∧
      (ins.op.stores version = false → ins.store = none) := by
  unfold decodeBody at h
  split at h
  · cases h
  split at h
  · cases h
  dsimp only at h
  split at h
  · cases h
  · rename_i op _
    cases h
    dsimp only at hbranch ⊢
    cases hop : op.branches version with
    | false =>
      rw [hop] at hbranch
      cases hbranch
    | true =>
      rw [hop] at hbranch
      refine ⟨rfl, ⟨_, Prod.ext (Option.some.inj hbranch) rfl⟩, fun hstores => ?_⟩
      rw [hstores]
      rfl

/-- Branch data of a decoded instruction end before the next instruction. -/
theorem Instruction.Decoded.branch {ins : Instruction} {b : Branch} (h : ins.Decoded)
    (hbranch : ins.branch = some b) :
    ∃ version m a, ins.op.branches version ∧ Branch.read m a = (b, ins.next) ∧
      (ins.op = .save ∨ ins.op = .restore → ins.store = none) := by
  obtain ⟨codec, m, address, codec', hdecode⟩ := h
  unfold decode at hdecode
  cases hbody : decodeBody codec.charset.version m address with
  | error fault =>
    rw [hbody] at hdecode
    cases hdecode
  | ok body =>
    rw [hbody] at hdecode
    dsimp only at hdecode
    split_ifs at hdecode with htext
    · -- an instruction with a text has no branch data
      cases hdecode
      have hop := (branch_of_decodeBody hbody hbranch).1
      rw [Op.hasText_of_branches hop] at htext
      cases htext
    · cases hdecode
      obtain ⟨hop, ⟨a, hread⟩, hstore⟩ := branch_of_decodeBody hbody hbranch
      exact ⟨_, m, a, hop, hread, fun hsave => hstore (Op.stores_of_branches hop hsave)⟩

/-- The branch that is left over with some work. -/
def Completion.branch? : Completion → Option Branch
  | .save (.branch b) | .restore (.branch b) | .piracy b => some b
  | _ => none

namespace Machine

/-! ## Obeying branch data -/

/-- Control leaves the sequence of instructions for a target only, and goes to the host only with a
branch left over. -/
structure GoesTo (b : Branch) (target : Nat) (r : Except Stop Flow × Machine) : Prop where
  jump : r.1 = .ok .jump → r.2.pc = target
  suspend : r.1 = .ok .suspend →
    ∃ completion, r.2.completion = some completion ∧ completion.branch? = some b

/-- An action by which control does so. -/
def Obeys (b : Branch) (target : Nat) (x : Exec Flow) : Prop :=
  ∀ m, GoesTo b target (x.run m)

section
variable {α : Type} {b : Branch} {target : Nat}

theorem obeys_next : Obeys b target (pure .next) :=
  fun _ => ⟨nofun, nofun⟩

theorem obeys_bind {x : Exec α} {f : α → Exec Flow} (h : ∀ a, Obeys b target (f a)) :
    Obeys b target (x >>= f) := by
  intro m
  rw [run_bind]
  rcases x.run m with ⟨e | a, m₁⟩
  · exact ⟨nofun, nofun⟩
  · exact h a m₁

theorem obeys_takeBranch (htarget : b.target = .address target) (condition : Bool) :
    Obeys b target (takeBranch b condition) := by
  unfold takeBranch
  split
  · exact obeys_next
  · rw [htarget]
    exact fun _ => ⟨fun _ => rfl, nofun⟩

theorem obeys_suspend {completion : Completion} (h : completion.branch? = some b)
    (request : Request) : Obeys b target (suspend request completion) :=
  fun _ => ⟨nofun, fun _ => ⟨completion, rfl, h⟩⟩

variable {ins : Instruction}

theorem obeys_branch (hbranch : ins.branch = some b) (htarget : b.target = .address target)
    (condition : Bool) : Obeys b target (branch ins condition) := by
  unfold branch
  rw [hbranch]
  exact obeys_takeBranch htarget condition

theorem deliveryOf_of_branch (hbranch : ins.branch = some b) (hstore : ins.store = none) :
    deliveryOf ins = pure (.branch b) := by
  rw [deliveryOf, hstore, hbranch]

theorem obeys_save (hbranch : ins.branch = some b) (hstore : ins.store = none)
    (htarget : b.target = .address target) (values : List UInt16) :
    Obeys b target (save ins values) := by
  unfold save
  rw [deliveryOf_of_branch hbranch hstore, pure_bind]
  split
  · exact obeys_bind fun _ => obeys_suspend rfl _
  · exact obeys_takeBranch htarget _

theorem obeys_restore (hbranch : ins.branch = some b) (hstore : ins.store = none)
    (htarget : b.target = .address target) (values : List UInt16) :
    Obeys b target (restore ins values) := by
  unfold restore
  rw [deliveryOf_of_branch hbranch hstore, pure_bind]
  split
  · exact obeys_suspend rfl _
  · exact obeys_takeBranch htarget _

/-- **An instruction obeys its branch data**, provided that they and not a variable are there for
the result of a save or restore. -/
theorem obeys_executeWith (hbranch : ins.branch = some b) (htarget : b.target = .address target)
    {version : UInt8} (hop : ins.op.branches version)
    (hstore : ins.op = .save ∨ ins.op = .restore → ins.store = none) (values : List UInt16) :
    Obeys b target (executeWith ins values) := by
  have hcondition := obeys_branch hbranch htarget
  unfold executeWith
  dsimp only
  cases hins : ins.op
  case je | jl | jg | jz | test => exact hcondition _
  case jin | testAttr | verify | checkArgCount => exact obeys_bind fun _ => hcondition _
  case incChk | decChk => exact obeys_bind fun _ => hcondition _
  case getSibling | getChild | scanTable =>
    exact obeys_bind fun _ => obeys_bind fun _ => hcondition _
  case save => exact obeys_save hbranch (hstore (.inl hins)) htarget values
  case restore => exact obeys_restore hbranch (hstore (.inr hins)) htarget values
  case piracy =>
    rw [hbranch]
    exact obeys_suspend rfl _
  -- no other operation has branch data
  all_goals
    rw [hins] at hop
    cases hop

/-- **So does an instruction with its operands.** -/
theorem obeys_execute (hins : ins.Decoded) (hbranch : ins.branch = some b)
    (htarget : b.target = .address target) : Obeys b target (execute ins) := by
  obtain ⟨version, _, _, hop, -, hstore⟩ := hins.branch hbranch
  exact obeys_bind fun values => obeys_executeWith hbranch htarget hop hstore values

/-- **So does the work that leaves a branch over**, unless it goes back to a save. -/
theorem goesTo_resume {completion : Completion} (hbranch : completion.branch? = some b)
    (htarget : b.target = .address target) {m : Machine}
    (hrestoring : ∀ s, ¬ Restoring completion m s) :
    GoesTo b target ((resume completion).run m) := by
  have htakes := obeys_takeBranch htarget
  cases completion with
  | printLeftovers | input | getCursor => cases hbranch
  | piracy b' =>
    cases hbranch
    exact obeys_bind (fun _ => htakes _) m
  | save delivery =>
    cases delivery with
    | store => cases hbranch
    | branch b' =>
      cases hbranch
      exact obeys_bind (fun _ => htakes _) m
  | restore delivery =>
    cases delivery with
    | store => cases hbranch
    | branch b' =>
      cases hbranch
      unfold resume resumeRestore
      rw [run_bind, run_get]
      dsimp only
      split
      · rename_i data hreply
        split
        · rename_i s hread
          exact absurd ⟨_, data, rfl, hreply, hread⟩ (hrestoring s)
        · exact htakes _ m
      · exact htakes _ m

/-- Before version 4 the restored story goes on where the branch of its save leads. -/
theorem restoreSnapshot_run_of_branch {m : Machine} {s : Snapshot} {stop : Nat}
    (hversion : m.version < 4) (hread : Branch.read (m.withSnapshot s).memory s.pc = (b, stop))
    (honTrue : b.onTrue = true) (htarget : b.target = .address target) :
    (restoreSnapshot s).run m = (.ok .jump, { m.withSnapshot s with pc := target }) := by
  have hold : ¬ 4 ≤ (m.withSnapshot s).version := by
    simpa only [version, withSnapshot, UInt8.not_le] using hversion
  unfold restoreSnapshot
  rw [run_modify_bind, run_bind, run_get]
  -- what else the snapshot changes does not matter
  generalize m.withSnapshot s = restored at hread hold ⊢
  dsimp only
  rw [if_neg hold, hread]
  dsimp only
  rw [takeBranch, honTrue, htarget]
  rfl

end

end Machine

namespace Moment

open Machine

/-! ## The middle of a run -/

/-- Whenever a run goes on, its machine is ready for it and what is left of a block has been
decoded. -/
structure Midway (cap : Nat) (μ : Moment) : Prop where
  ready : μ.phase ≠ .host → μ.phase ≠ .endless → Ready cap μ.machine
  rest : ∀ ins ∈ μ.rest, ins.Decoded

variable {cap : Nat}

theorem Midway.ready_of_fetching {m : Machine} {blocks : Nat}
    (h : Midway cap ⟨m, .fetching blocks⟩) : Ready cap m :=
  h.ready nofun nofun

theorem Midway.ready_of_executing {m : Machine} {rest : List Instruction} {blocks : Nat}
    (h : Midway cap ⟨m, .executing rest blocks⟩) : Ready cap m :=
  h.ready nofun nofun

theorem goesOn_next (m : Machine) : GoesOn (.ok .next, m) :=
  ⟨.next, rfl, nofun⟩

theorem goesOn_jump (m : Machine) : GoesOn (.ok .jump, m) :=
  ⟨.jump, rfl, nofun⟩

theorem midway_stopped (e : Stop) (m : Machine) : Midway cap (stopped e m) := by
  cases e with
  | fault f => exact ⟨fun hhost => absurd rfl hhost, List.forall_mem_nil _⟩
  | endless => exact ⟨fun _ hendless => absurd rfl hendless, List.forall_mem_nil _⟩

theorem midway_left {r : Except Stop Flow × Machine} (h : GoesOn r → Ready cap r.2)
    (blocks : Nat) : Midway cap (left blocks r) := by
  rcases r with ⟨e | flow, m⟩
  · exact midway_stopped e m
  · cases flow with
    | suspend => exact ⟨fun hhost => absurd rfl hhost, List.forall_mem_nil _⟩
    | next => exact ⟨fun _ _ => h (goesOn_next m), List.forall_mem_nil _⟩
    | jump => exact ⟨fun _ _ => h (goesOn_jump m), List.forall_mem_nil _⟩

/-- An instruction that goes on leaves the machine ready. -/
theorem ready_execute {m : Machine} (hm : Ready cap m) (ins : Instruction)
    (h : GoesOn ((execute ins).run { m with pc := ins.next })) :
    Ready cap ((execute ins).run { m with pc := ins.next }).2 := by
  obtain ⟨codec, -, hleaves⟩ := (spells_execute ins).leaves { m with pc := ins.next }
  have hstart : Ready cap { m with pc := ins.next, codec } := hm.same rfl rfl rfl rfl rfl
  exact hleaves.ready hstart h

theorem Midway.step {μ : Moment} (h : Midway cap μ) (hkept : μ.machine.DecodedBlocks) :
    Midway cap μ.step := by
  rcases μ with ⟨m, _ | blocks | ⟨_ | ⟨ins, rest⟩, blocks⟩ | _⟩
  · exact h
  · have hm : Ready cap m := h.ready_of_fetching
    cases blocks with
    | zero => exact ⟨fun hhost => absurd rfl hhost, List.forall_mem_nil _⟩
    | succ blocks =>
      obtain ⟨-, hblock, -⟩ := hkept.fetchBlock
      obtain ⟨caches, codec, hfetch⟩ := fetchBlock_run_snd m
      rw [Moment.step]
      revert hblock hfetch
      rcases Machine.fetchBlock.run m with ⟨e | block, m₁⟩
      · exact fun _ _ => midway_stopped e m₁
      · rintro hblock rfl
        exact ⟨fun _ _ => hm.same rfl rfl rfl rfl rfl, hblock block rfl⟩
  · exact ⟨fun _ _ => h.ready_of_executing, List.forall_mem_nil _⟩
  · have hready := ready_execute h.ready_of_executing ins
    rw [Moment.step]
    revert hready
    rcases (execute ins).run { m with pc := ins.next } with ⟨e | flow, m₁⟩
    · exact fun hready => midway_left hready blocks
    · cases flow with
      | next =>
        intro hready
        exact ⟨fun _ _ => hready (goesOn_next m₁),
          fun i hi => h.rest i (List.mem_cons_of_mem _ hi)⟩
      | jump => exact fun hready => midway_left hready blocks
      | suspend => exact fun hready => midway_left hready blocks
  · exact h

/-- Work that is left over finds the machine ready. -/
theorem ready_taken {m : Machine} (hm : m.Orderly) (hhalted : m.halted = none)
    (hfinished : m.finished = false) : Ready m.config.iterationCap (taken m) :=
  ⟨⟨hm.parked, rfl, hfinished⟩, hhalted, rfl⟩

theorem midway_begin {m : Machine} (hm : m.Orderly) :
    Midway m.config.iterationCap (begin m) := by
  by_cases hrunning : m.halted = none ∧ m.finished = false
  · obtain ⟨hhalted, hfinished⟩ := hrunning
    rw [begin_eq hhalted hfinished]
    exact midway_left (poised_leftover (ready_taken hm hhalted hfinished) rfl _).ready _
  · have hhost : (begin m).phase = .host := by
      unfold begin
      split
      · rfl
      split
      · rfl
      · rename_i hhalted hfinished
        exact absurd ⟨by simpa using hhalted, by simpa using hfinished⟩ hrunning
    refine ⟨fun hphase => absurd hhost hphase, ?_⟩
    rw [Moment.rest, hhost]
    exact List.forall_mem_nil _

/-- **So it is at every moment of a run.** -/
theorem midway_leads {m : Machine} (hm : m.Orderly) (hkept : m.DecodedBlocks) {μ : Moment}
    (h : Leads (begin m) μ) : Midway m.config.iterationCap μ := by
  induction h with
  | refl => exact midway_begin hm
  | tail hleads hstep ih =>
    rw [hstep]
    exact ih.step (lasting_decodedBlocks.leads hleads (lasting_decodedBlocks.begin hkept))

/-! ## Taken branches -/

/-- A branch is taken whose data end before `stop`.  From its instruction on control leaves the
sequence at once or, after a request, when the next run begins; and before version 4 the branch of a
save is taken when a run restores that save or the host loads it. -/
inductive Takes (b : Branch) : Nat → Moment → Moment → Prop
  | executed {m m' : Machine} {ins : Instruction} {rest : List Instruction} {blocks : Nat}
      (hbranch : ins.branch = some b)
      (hrun : (execute ins).run { m with pc := ins.next } = (.ok .jump, m')) :
      Takes b ins.next ⟨m, .executing (ins :: rest) blocks⟩ ⟨m', .fetching blocks⟩
  | replied {m m₁ m₂ : Machine} {ins : Instruction} {rest : List Instruction} {blocks : Nat}
      (hbranch : ins.branch = some b)
      (hasks : (execute ins).run { m with pc := ins.next } = (.ok .suspend, m₁))
      (hhost : Relation.ReflTransGen Attends m₁ m₂) (hsave : ∀ s, ¬ BeginsRestoring m₂ s)
      (hjump : ((leftover m₂.completion).run (taken m₂)).1 = .ok .jump) :
      Takes b ins.next ⟨m, .executing (ins :: rest) blocks⟩ (begin m₂)
  | restored {m : Machine} {s : Snapshot} {stop : Nat} (hsave : BeginsRestoring m s)
      (hversion : m.version < 4) (hread : Branch.read (m.withSnapshot s).memory s.pc = (b, stop))
      (honTrue : b.onTrue = true) : Takes b stop ⟨m, .host⟩ (begin m)
  | loaded {m : Machine} {data : List UInt8} {s : Snapshot} {stop : Nat}
      (hsave : m.readSave data = .ok s) (hhalted : m.halted = none) (hversion : m.version < 4)
      (hread : Branch.read (m.withSnapshot s).memory s.pc = (b, stop))
      (honTrue : b.onTrue = true) : Takes b stop ⟨m, .host⟩ ⟨(m.loadSavedGame data).2, .host⟩

variable {b : Branch} {stop target : Nat} {μ ν : Moment}

/-- What lasts is still true when a branch has been taken. -/
theorem Takes.lasting {P : Machine → Prop} (hP : Lasting P) (h : Takes b stop μ ν)
    (hμ : P μ.machine) : P ν.machine := by
  have hexecuted : ∀ {m : Machine}, P m → ∀ ins : Instruction,
      P ((execute ins).run { m with pc := ins.next }).2 := by
    intro m hm ins
    have hmoved : P { m with pc := ins.next } := hP.idle rfl hm
    exact hP.execute hmoved ins
  cases h with
  | @executed m m' ins rest blocks hbranch hrun =>
    have hm' := hexecuted hμ ins
    rwa [hrun] at hm'
  | @replied m m₁ m₂ ins rest blocks hbranch hasks hhost hsave hjump =>
    have hm₁ := hexecuted hμ ins
    rw [hasks] at hm₁
    apply hP.begin
    clear hsave hjump
    induction hhost with
    | refl => exact hm₁
    | tail _ hattend ih => exact hP.attend ih hattend
  | restored => exact hP.begin hμ
  | loaded => exact hP.loadSavedGame hμ _

/-- Some branch data are those of the branch. -/
theorem Takes.read (h : Takes b stop μ ν) (hμ : Midway cap μ) :
    ∃ m a, Branch.read m a = (b, stop) := by
  have hdata : ∀ {ins : Instruction}, ins ∈ μ.rest → ins.branch = some b →
      ∃ m a, Branch.read m a = (b, ins.next) := by
    intro ins hins hbranch
    obtain ⟨_, m, a, -, hread, -⟩ := (hμ.rest ins hins).branch hbranch
    exact ⟨m, a, hread⟩
  cases h with
  | executed hbranch _ => exact hdata List.mem_cons_self hbranch
  | replied hbranch _ _ _ _ => exact hdata List.mem_cons_self hbranch
  | restored _ _ hread _ => exact ⟨_, _, hread⟩
  | loaded _ _ _ hread _ => exact ⟨_, _, hread⟩

/-- The machine is at the target, and blocks come next. -/
structure Reaches (target : Nat) (ν : Moment) : Prop where
  pc : ν.machine.pc = target
  completion : ν.machine.completion = none
  finished : ν.machine.finished = false
  halted : ν.machine.halted = none
  phase : ν.phase = .host ∨ ∃ blocks, ν.phase = .fetching blocks

theorem reaches_of_ready {m : Machine} (h : Ready cap m) (blocks : Nat) :
    Reaches m.pc ⟨m, .fetching blocks⟩ :=
  ⟨rfl, h.calm.completion, h.calm.finished, h.halted, .inr ⟨blocks, rfl⟩⟩

/-- A run begins at a target if the work that is left over leads there. -/
theorem reaches_begin {m : Machine} (hm : m.Orderly) (hhalted : m.halted = none)
    {completion : Completion} (hcompletion : m.completion = some completion)
    (hjump : ((resume completion).run (taken m)).1 = .ok .jump)
    (hpc : ((resume completion).run (taken m)).2.pc = target) : Reaches target (begin m) := by
  have hfinished : m.finished = false := hm.not_finished hcompletion
  have hready := (poised_leftover (ready_taken hm hhalted hfinished) rfl m.completion).ready
  rw [begin_eq hhalted hfinished]
  rw [hcompletion] at hready ⊢
  obtain ⟨replies, hleftover, -⟩ := leftover_run completion (taken m)
  rw [hleftover, hjump] at hready ⊢
  have hreaches := reaches_of_ready (hready (goesOn_jump _)) m.config.iterationCap
  rw [← hpc]
  exact hreaches

/-- What the host does between two runs leaves its machine with the same work and no fault more. -/
theorem orderly_of_attends {m m' : Machine} (h : Relation.ReflTransGen Attends m m')
    (hm : m.Orderly) :
    m'.Orderly ∧ m'.completion = m.completion ∧ m'.halted = m.halted := by
  induction h with
  | refl => exact ⟨hm, rfl, rfl⟩
  | tail _ hattend ih =>
    obtain ⟨horderly, hcompletion, hhalted⟩ := ih
    refine ⟨horderly.attend hattend, ?_⟩
    obtain ⟨codec, random, streams, replies, rfl⟩ := hattend.eq
    exact ⟨hcompletion, hhalted⟩

/-- An instruction that asks the host leaves an orderly machine. -/
theorem orderly_execute {m : Machine} (hm : Ready cap m) (ins : Instruction) :
    ((execute ins).run { m with pc := ins.next }).2.Orderly ∧
      ((execute ins).run { m with pc := ins.next }).2.halted = none := by
  have hcalm : Calm { m with pc := ins.next } :=
    ⟨hm.calm.parked, hm.calm.completion, hm.calm.finished⟩
  obtain ⟨codec, -, hleaves⟩ := (spells_execute ins).leaves { m with pc := ins.next }
  exact ⟨(settled_execute hcalm ins).orderly, hleaves.halted.trans hm.halted⟩

/-- Work that restores a save goes back to it. -/
theorem resume_run_of_restoring {completion : Completion} {m : Machine} {s : Snapshot}
    (h : Restoring completion m s) :
    (resume completion).run m = (restoreSnapshot s).run m := by
  obtain ⟨delivery, data, rfl, hreply, hread⟩ := h
  unfold resume resumeRestore
  rw [run_bind, run_get]
  dsimp only
  rw [hreply]
  dsimp only
  rw [hread]

/-- **A taken branch leads to its target.** -/
theorem Takes.reaches (h : Takes b stop μ ν) (hμ : Midway cap μ)
    (horderly : μ.phase = .host → μ.machine.Orderly) (htarget : b.target = .address target) :
    Reaches target ν := by
  cases h with
  | @executed m m' ins rest blocks hbranch hrun =>
    have hgoes := obeys_execute (hμ.rest ins List.mem_cons_self) hbranch htarget
      { m with pc := ins.next }
    have hready := ready_execute hμ.ready_of_executing ins
    rw [hrun] at hgoes hready
    have hreaches := reaches_of_ready (hready (goesOn_jump _)) blocks
    rw [← hgoes.jump rfl]
    exact hreaches
  | @replied m m₁ m₂ ins rest blocks hbranch hasks hhost hsave hjump =>
    have hgoes := obeys_execute (hμ.rest ins List.mem_cons_self) hbranch htarget
      { m with pc := ins.next }
    have hexecuted := orderly_execute hμ.ready_of_executing ins
    rw [hasks] at hgoes hexecuted
    obtain ⟨completion, hleft, hbranch'⟩ := hgoes.suspend rfl
    obtain ⟨horderly₂, hcompletion₂, hhalted₂⟩ := orderly_of_attends hhost hexecuted.1
    have hhalted : m₂.halted = none := hhalted₂.trans hexecuted.2
    have hcompletion : m₂.completion = some completion := hcompletion₂.trans hleft
    rw [hcompletion] at hjump
    obtain ⟨replies, hleftover, -⟩ := leftover_run completion (taken m₂)
    rw [hleftover] at hjump
    have hrestoring : ∀ s, ¬ Restoring completion (taken m₂) s := by
      intro s hs
      exact hsave s ⟨hhalted, horderly₂.not_finished hcompletion, completion, hcompletion, hs⟩
    have hresumed := goesTo_resume hbranch' htarget hrestoring
    exact reaches_begin horderly₂ hhalted hcompletion hjump (hresumed.jump hjump)
  | @restored m s stop hsave hversion hread honTrue =>
    obtain ⟨hhalted, -, completion, hcompletion, hrestoring⟩ := hsave
    have hresumed := resume_run_of_restoring (m := taken m) hrestoring
    have hrun := restoreSnapshot_run_of_branch (m := taken m) hversion hread honTrue htarget
    rw [hrun] at hresumed
    exact reaches_begin (horderly rfl) hhalted hcompletion (by rw [hresumed]) (by rw [hresumed])
  | @loaded m data s stop hsave hhalted hversion hread honTrue =>
    have hrun := restoreSnapshot_run_of_branch
      (m := { m with request := none, completion := none, replies := [], finished := false })
      hversion hread honTrue htarget
    rw [loadSavedGame_taken hsave, hrun]
    dsimp only [withSnapshot]
    exact ⟨rfl, rfl, rfl, hhalted, .inl rfl⟩

/-- Outside the image the machine is lost. -/
theorem Reaches.astray {size : Nat} (h : Reaches target ν) (hinside : ν.machine.InsideBlocks)
    (hsize : ν.machine.memory.size = size) (hout : size ≤ target) : Astray target size ν := by
  have houtside : ν.machine.memory.size ≤ ν.machine.pc := by
    rw [hsize, h.pc]
    exact hout
  have hkept : ν.machine.blocks.blocks[ν.machine.pc]? = none := by
    cases hfound : ν.machine.blocks.blocks[ν.machine.pc]? with
    | none => rfl
    | some block => exact absurd (hinside _ block hfound) (Nat.not_lt.mpr houtside)
  have hlost : ν.machine.Lost target size :=
    ⟨h.pc, hsize, houtside, hkept, h.completion, h.finished, h.halted⟩
  rcases ν with ⟨m, phase⟩
  obtain hhost | ⟨blocks, hfetching⟩ := h.phase
  · cases hhost
    exact .waiting hlost
  · cases hfetching
    exact .fetching hlost blocks

/-- A jump checks its target before it goes there. -/
theorem jump_run (offset : Int) (m : Machine) :
    (jump offset).run m =
      if m.pc + offset - 2 < 0 ∨ (m.memory.size : Int) ≤ m.pc + offset - 2 then
        (.error (.fault (.pcOutOfRange (m.pc + offset - 2).toNat m.memory.size)), m)
      else (.ok .jump, { m with pc := (m.pc + offset - 2).toNat }) := by
  unfold jump
  rw [run_bind, run_get]
  dsimp only
  by_cases hout : m.pc + offset - 2 < 0 ∨ (m.memory.size : Int) ≤ m.pc + offset - 2
  · rw [if_pos hout, if_pos (by omega)]
    rfl
  · rw [if_neg hout, if_neg (by omega)]
    rfl

/-- **Where a taken branch leads.**  Take any moment that a host can bring about from any image, and
a branch that is taken then, for whatever reason.  The machine goes to the target that the branch
data give, or to address zero if that is negative.  Past the end of the image it halts before it
executes anything else, with the fault that a jump by the same offset from the same place reports;
and in the image neither of them reports it.  They differ below address zero, where only the jump
does. -/
theorem taken_branch_arrives {image : Array UInt8} {config : Config} {m : Machine}
    (h : Reachable image config m) {μ ν : Moment} (hμ : Leads (begin m) μ ∨ μ = ⟨m, .host⟩)
    {b : Branch} {stop : Nat} (htakes : Takes b stop μ ν) :
    (∃ memory a, Branch.read memory a = (b, stop)) ∧
    ∀ memory a, Branch.read memory a = (b, stop) →
      Branch.offset memory a ≠ 0 → Branch.offset memory a ≠ 1 →
      ∀ target : Int, target = stop + Branch.offset memory a - 2 →
        ν.machine.pc = target.toNat ∧
        (image.size ≤ target → HaltsWith (.pcOutOfRange target.toNat image.size) ν) ∧
        (target < image.size → ∀ pc size,
          (fetchBlock.run ν.machine).1 ≠ .error (.fault (.pcOutOfRange pc size))) ∧
        ∀ m' : Machine, m'.pc = stop → m'.memory.size = image.size →
          (jump (Branch.offset memory a)).run m' =
            if target < 0 ∨ image.size ≤ target then
              (.error (.fault (.pcOutOfRange target.toNat image.size)), m')
            else (.ok .jump, { m' with pc := target.toNat }) := by
  have hkept : m.DecodedBlocks :=
    lasting_decodedBlocks.reachable (fun _ hload => (watched_load hload).kept) h
  have hinside : m.InsideBlocks :=
    lasting_insideBlocks.reachable (fun _ hload => insideBlocks_load hload) h
  have hmoment : ∀ {P : Machine → Prop}, Lasting P → P m → P μ.machine := by
    intro P hP hm
    obtain hleads | rfl := hμ
    · exact hP.leads hleads (hP.begin hm)
    · exact hm
  have hmidway : Midway m.config.iterationCap μ := by
    obtain hleads | rfl := hμ
    · exact midway_leads h.orderly hkept hleads
    · exact ⟨fun hhost => absurd rfl hhost, List.forall_mem_nil _⟩
  have horderly : μ.phase = .host → μ.machine.Orderly := by
    intro hhost
    obtain hleads | rfl := hμ
    · -- the host has control where the run has ended
      rcases μ with ⟨m', phase⟩
      cases hhost
      have hended := h.run.orderly
      rwa [run_snd_of_leads hleads] at hended
    · exact h.orderly
  have hinsideν := htakes.lasting lasting_insideBlocks (hmoment lasting_insideBlocks hinside)
  have hplays : Plays image config ν.machine :=
    htakes.lasting (lasting_plays image config) (hmoment (lasting_plays image config) h.plays)
  have hsize : ν.machine.memory.size = image.size := hplays.image.size
  refine ⟨htakes.read hmidway, fun memory a hread hfalse htrue target htarget => ?_⟩
  have hreaches := htakes.reaches hmidway horderly (Branch.target_of_read hread hfalse htrue)
  rw [← htarget] at hreaches
  refine ⟨hreaches.pc, fun hout => ?_, fun hin pc size => ?_, fun m' hpc hm' => ?_⟩
  · exact (hreaches.astray hinsideν hsize (by omega)).haltsWith
  · have hpos : Header.length ≤ ν.machine.memory.size := hplays.header_le.2
    have hlength : 0 < Header.length := by decide
    apply fetchBlock_ne_pcOutOfRange
    rw [hreaches.pc]
    omega
  · rw [jump_run, hpc, hm', htarget]

/-! ## Branches out of a story -/

/-- A story whose code at `0x40` branches if zero is zero, by the offset in its branch data, and
quits otherwise. -/
def branchingImage (high low : UInt8) : Array UInt8 :=
  (5 :: List.replicate 6 (0 : UInt8) ++ 0x40 :: List.replicate 7 (0 : UInt8) ++
    0x50 :: List.replicate 48 (0 : UInt8) ++
    [0x90, 0, high, low, 0xBA] ++ List.replicate 19 (0 : UInt8)).toArray

/-- The first instruction with the target of its branch. -/
def branching (target : Nat) : Instruction where
  address := 0x40
  op := .jz
  number := 0x80
  operands := [.small 0]
  operandsEnd := 0x42
  store := none
  branch := some ⟨true, .address target⟩
  text := none
  next := 0x44

/-- The instruction after it. -/
def ending : Instruction where
  address := 0x44
  op := .quit
  number := 0xBA
  operands := []
  operandsEnd := 0x45
  store := none
  branch := none
  text := none
  next := 0x45

/-- The machine of the story that branches past its end. -/
def outwardMachine : Machine :=
  (load (branchingImage 0x80 0x64) { iterationCap := 3, random := .lowest }).toOption.get rfl

/-- The machine of the story that branches below address zero. -/
def downwardMachine : Machine :=
  (load (branchingImage 0xA0 0) { iterationCap := 3, random := .lowest }).toOption.get rfl

/-- The moment at which it is to branch, after the fetch of its block. -/
def aboutToBranch (m : Machine) (target : Nat) : Moment :=
  ⟨{ m with blocks := { decoded := 1 } }, .executing [branching target, ending] 2⟩

/-- The moment after that. -/
def branched (m : Machine) (target : Nat) : Moment :=
  ⟨{ m with blocks := { decoded := 1 }, pc := target }, .fetching 2⟩

/-- The branch is taken. -/
theorem takes_branched (m : Machine) (target : Nat) :
    Takes ⟨true, .address target⟩ 0x44 (aboutToBranch m target) (branched m target) := by
  have hrun : (execute (branching target)).run
      { m with blocks := { decoded := 1 }, pc := (branching target).next }
        = (.ok .jump, (branched m target).machine) := rfl
  have hbranch : (branching target).branch = some ⟨true, .address target⟩ := rfl
  exact .executed hbranch hrun

set_option maxRecDepth 1000 in
theorem read_outward :
    Branch.read outwardMachine.memory 0x42 = (⟨true, .address 0xA6⟩, 0x44) := rfl

set_option maxRecDepth 1000 in
theorem read_downward :
    Branch.read downwardMachine.memory 0x42 = (⟨true, .address 0⟩, 0x44) := rfl

set_option maxRecDepth 1000 in
theorem leads_outward : Leads (begin outwardMachine) (aboutToBranch outwardMachine 0xA6) := by
  have hfetch : step (begin outwardMachine) = aboutToBranch outwardMachine 0xA6 :=
    step_fetching_of_dynamic ⟨0x40, [branching 0xA6, ending]⟩ Std.HashMap.getElem?_empty
      (by decide) rfl
  exact .single hfetch.symm

set_option maxRecDepth 1000 in
theorem leads_downward : Leads (begin downwardMachine) (aboutToBranch downwardMachine 0) := by
  have hfetch : step (begin downwardMachine) = aboutToBranch downwardMachine 0 :=
    step_fetching_of_dynamic ⟨0x40, [branching 0, ending]⟩ Std.HashMap.getElem?_empty
      (by decide) rfl
  exact .single hfetch.symm

/-- The story that branches past its end halts there. -/
theorem taken_branch_arrives_outward :
    Reachable (branchingImage 0x80 0x64) { iterationCap := 3, random := .lowest } outwardMachine ∧
      Leads (begin outwardMachine) (aboutToBranch outwardMachine 0xA6) ∧
      Takes ⟨true, .address 0xA6⟩ 0x44 (aboutToBranch outwardMachine 0xA6)
        (branched outwardMachine 0xA6) ∧
      Branch.read outwardMachine.memory 0x42 = (⟨true, .address 0xA6⟩, 0x44) ∧
      HaltsWith (.pcOutOfRange 0xA6 0x58) (branched outwardMachine 0xA6) := by
  have hreachable :
      Reachable (branchingImage 0x80 0x64) { iterationCap := 3, random := .lowest }
        outwardMachine :=
    .load rfl
  have htakes := takes_branched outwardMachine 0xA6
  have harrives := (taken_branch_arrives hreachable (.inl leads_outward) htakes).2
    outwardMachine.memory 0x42 read_outward (by decide +kernel) (by decide +kernel) 0xA6
    (by decide +kernel)
  exact ⟨hreachable, leads_outward, htakes, read_outward, harrives.2.1 (by decide +kernel)⟩

/-- The instruction that the first five bytes of the header are. -/
def counting : Instruction where
  address := 0
  op := .incChk
  number := 5
  operands := [.small 0x1D, .small 0]
  operandsEnd := 3
  store := none
  branch := some ⟨false, .returnFalse⟩
  text := none
  next := 5

/-- The machine that branched below address zero once it has fetched that. -/
def strayed : Machine :=
  { (branched downwardMachine 0).machine with blocks := { decoded := 2 } }

/-- The machine once it has executed that, which counts up a global variable in the header. -/
def counted : Machine :=
  { strayed with pc := 5, memory := strayed.memory.setWord 0x1A 1 }

set_option maxRecDepth 1000 in
theorem step_branched_downward :
    step (branched downwardMachine 0) = ⟨strayed, .executing [counting] 1⟩ :=
  step_fetching_of_dynamic ⟨0, [counting]⟩ Std.HashMap.getElem?_empty (by decide) rfl

/-- The story that branches below address zero executes its header, and what stops it then is the
zero byte at address five; a jump by the same offset from the same place stops it at once. -/
theorem taken_branch_astray :
    Reachable (branchingImage 0xA0 0) { iterationCap := 3, random := .lowest } downwardMachine ∧
      Leads (begin downwardMachine) (aboutToBranch downwardMachine 0) ∧
      Takes ⟨true, .address 0⟩ 0x44 (aboutToBranch downwardMachine 0)
        (branched downwardMachine 0) ∧
      Branch.read downwardMachine.memory 0x42 = (⟨true, .address 0⟩, 0x44) ∧
      Branch.offset downwardMachine.memory 0x42 = -0x2000 ∧
      step (branched downwardMachine 0) = ⟨strayed, .executing [counting] 1⟩ ∧
      downwardMachine.run.2.halted = some (.nullOpcode 5) ∧
      ¬ HaltsWith (.pcOutOfRange 0 0x58) (branched downwardMachine 0) ∧
      (jump (-0x2000)).run { downwardMachine with pc := 0x44 }
        = (.error (.fault (.pcOutOfRange 0 0x58)), { downwardMachine with pc := 0x44 }) := by
  have hbranch : step (aboutToBranch downwardMachine 0) = branched downwardMachine 0 := rfl
  have hcount : step ⟨strayed, .executing [counting] 1⟩ = ⟨counted, .executing [] 1⟩ := rfl
  have hdone : step ⟨counted, .executing [] 1⟩ = ⟨counted, .fetching 1⟩ := rfl
  have hstop : step ⟨counted, .fetching 1⟩
      = ⟨{ counted with halted := some (.nullOpcode 5) }, .host⟩ := by
    have hfetch : fetchBlock.run counted = (.error (.fault (.nullOpcode 5)), counted) := by
      rw [fetchBlock_run, BlockCache.fetch_of_none Std.HashMap.getElem?_empty]
      rfl
    rw [step, hfetch]
    rfl
  have hrun : Leads (begin downwardMachine)
      ⟨{ counted with halted := some (.nullOpcode 5) }, .host⟩ :=
    leads_downward.trans <| .head hbranch.symm <| .head step_branched_downward.symm <|
      .head hcount.symm <| .head hdone.symm <| .single hstop.symm
  refine ⟨.load rfl, leads_downward, takes_branched _ _, read_downward, by decide +kernel,
    step_branched_downward, ?_, fun hhalts => ?_, jump_run _ _⟩
  · rw [run_snd_of_leads hrun]
  · have hnow := hhalts.now 1 rfl
    rw [step_branched_downward] at hnow
    cases hnow

end Moment
end ZMachine
