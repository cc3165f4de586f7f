/-
# What lasts

A fact about machines that no action breaks is true of all machines that a host can bring about, if
loading brings it about.  A fact that looks only at the equipment of a machine and at the image of
its story has to be checked only where these change: when a string is decoded, when a block is
fetched and when the story starts again.

* `Lasting` : no action breaks the fact;
* `Lasting.step`, `Lasting.begin` and `Lasting.leads` : so it survives a step and a run;
* `Lasting.reachable` : and it is true of all machines that a host can bring about;
* `OfEquipment` : the fact looks at equipment and image and survives where they change;
* `OfEquipment.lasting` : then it lasts.
-/
import ZMachine.Proofs.Machine.Control
import ZMachine.Proofs.Machine.StackInvariant

namespace ZMachine

open Memory (SameImage)

namespace Machine

open Moment

/-! ## Facts that no action breaks -/

/-- Only program counter and host's side have changed, and a parked input is as before. -/
def Idle (m m' : Machine) : Prop :=
  m' = { m with
    pc := m'.pc
    request := m'.request
    replies := m'.replies
    completion := m'.completion
    halted := m'.halted
    finished := m'.finished }

/-- A fact about machines that nothing breaks. -/
structure Lasting (P : Machine → Prop) : Prop where
  idle : ∀ {m m' : Machine}, Idle m m' → P m → P m'
  execute : ∀ {m : Machine}, P m → ∀ ins : Instruction, P ((execute ins).run m).2
  resume : ∀ {m : Machine}, P m → ∀ completion : Completion, P ((resume completion).run m).2
  fetchBlock : ∀ {m : Machine}, P m → P (fetchBlock.run m).2
  restoreSnapshot : ∀ {m : Machine}, P m → ∀ s : Snapshot, P ((restoreSnapshot s).run m).2
  attend : ∀ {m m' : Machine}, P m → Attends m m' → P m'
  restart : ∀ {m : Machine}, P m → P m.restart

section
variable {P : Machine → Prop}

/-! ### Moments of a run -/

theorem Lasting.stopped (hP : Lasting P) {m : Machine} (hm : P m) (e : Stop) :
    P (stopped e m).machine := by
  obtain ⟨halted, hmachine⟩ := machine_stopped e m
  rw [hmachine]
  exact hP.idle rfl hm

theorem Lasting.left (hP : Lasting P) {r : Except Stop Flow × Machine} (hr : P r.2)
    (blocks : Nat) : P (left blocks r).machine := by
  obtain ⟨halted, hmachine⟩ := machine_left blocks r
  rw [hmachine]
  exact hP.idle rfl hr

/-- **It survives a step.** -/
theorem Lasting.step (hP : Lasting P) {μ : Moment} (h : P μ.machine) : P μ.step.machine := by
  rcases μ with ⟨m, _ | blocks | ⟨_ | ⟨ins, rest⟩, blocks⟩ | _⟩
  · exact h
  · cases blocks with
    | zero => exact hP.idle rfl h
    | succ blocks =>
        have hfetch : P (Machine.fetchBlock.run m).2 := hP.fetchBlock h
        rw [Moment.step]
        revert hfetch
        rcases Machine.fetchBlock.run m with ⟨e | block, m₁⟩
        · exact fun hfetch => hP.stopped hfetch e
        · exact id
  · exact h
  · have hmoved : P { m with pc := ins.next } := hP.idle rfl h
    obtain ⟨halted, hmachine⟩ := machine_step_executing m ins rest blocks
    rw [hmachine]
    exact hP.idle rfl (hP.execute hmoved ins)
  · exact h

theorem Lasting.leftover (hP : Lasting P) {m : Machine} (hm : P m)
    (completion : Option Completion) : P ((leftover completion).run m).2 := by
  cases completion with
  | none => exact hP.idle rfl hm
  | some completion =>
      obtain ⟨replies, hleftover, -⟩ := leftover_run completion m
      rw [hleftover]
      exact hP.idle rfl (hP.resume hm completion)

/-- It survives the beginning of a run. -/
theorem Lasting.begin (hP : Lasting P) {m : Machine} (hm : P m) : P (begin m).machine := by
  unfold Moment.begin
  split
  · exact hm
  split
  · exact hP.idle rfl hm
  · have htaken : P (taken m) := hP.idle rfl hm
    exact hP.left (hP.leftover htaken _) _

theorem Lasting.leads (hP : Lasting P) {μ ν : Moment} (h : Leads μ ν) (hμ : P μ.machine) :
    P ν.machine := by
  induction h with
  | refl => exact hμ
  | tail _ hstep ih =>
      rw [hstep]
      exact hP.step ih

/-! ### Whatever the host does -/

theorem Lasting.run (hP : Lasting P) {m : Machine} (hm : P m) : P m.run.2 := by
  have houtcome := hP.leads (leads_run m) (hP.begin hm)
  rw [machine_outcome] at houtcome
  exact houtcome

theorem Lasting.loadSavedGame (hP : Lasting P) {m : Machine} (hm : P m) (data : List UInt8) :
    P (m.loadSavedGame data).2 := by
  cases hread : m.readSave data with
  | error e =>
      rw [loadSavedGame_refused hread]
      exact hm
  | ok s =>
      rw [loadSavedGame_taken hread]
      refine hP.restoreSnapshot (hP.idle ?_ hm) s
      rfl

/-- **It is true of all machines that a host can bring about.** -/
theorem Lasting.reachable (hP : Lasting P) {image : Array UInt8} {config : Config}
    (hload : ∀ m, load image config = .ok m → P m) {m : Machine} (h : Reachable image config m) :
    P m := by
  induction h with
  | load h => exact hload _ h
  | run _ ih => exact hP.run ih
  | attend _ ha ih => exact hP.attend ih ha
  | loadSavedGame _ data ih => exact hP.loadSavedGame ih data
  | restart _ ih => exact hP.restart ih

/-! ## Facts about equipment and image -/

/-- A fact about the equipment of a machine and the image of its story that nothing breaks. -/
structure OfEquipment (P : Machine → Prop) : Prop where
  /-- It looks at nothing else. -/
  work : ∀ {m m' : Machine}, m'.equipment = m.equipment → SameImage m.memory m'.memory → P m → P m'
  decode : ∀ {m : Machine} (a : Nat), P m → P { m with codec := (m.codec.decode m.memory a).2 }
  fetchBlock : ∀ {m : Machine}, P m → P (fetchBlock.run m).2
  restart : ∀ {m : Machine}, P m → P m.restart

/-- Other fields of the machine do not matter. -/
theorem OfEquipment.same (hP : OfEquipment P) {m m' : Machine} (hm : P m)
    (hequipment : m'.equipment = m.equipment) (hmemory : m'.memory = m.memory) : P m' :=
  hP.work hequipment (hmemory ▸ SameImage.refl m.memory) hm

theorem OfEquipment.leaves (hP : OfEquipment P) {m : Machine} {r : Except Stop Flow × Machine}
    (h : Leaves m r) (hm : P m) : P r.2 :=
  hP.work h.equipment h.image hm

theorem OfEquipment.execute (hP : OfEquipment P) {m : Machine} (hm : P m) (ins : Instruction) :
    P ((execute ins).run m).2 := by
  obtain ⟨codec, rfl | ⟨a, rfl⟩, hleaves⟩ := (spells_execute ins).leaves m
  · exact hP.leaves hleaves hm
  · exact hP.leaves hleaves (hP.decode a hm)

theorem OfEquipment.attend (hP : OfEquipment P) {m m' : Machine} (hm : P m)
    (h : Attends m m') : P m' := by
  cases h with
  | answer slot reply => exact hP.same hm rfl rfl
  | setRandomSeed seed => exact hP.same hm rfl rfl
  | takeOutput => exact hP.same hm rfl rfl
  | takeTranscript => exact hP.same hm rfl rfl
  | statusLine width =>
      unfold Machine.statusLine
      split
      · exact hm
      · dsimp only
        split
        · exact hP.decode _ hm
        · exact hm

/-- **No action breaks it.** -/
theorem OfEquipment.lasting (hP : OfEquipment P) : Lasting P where
  idle {m m'} h hm := by
    rw [h]
    exact hP.same hm rfl rfl
  execute := hP.execute
  resume {m} hm completion := by
    obtain ⟨parked, -, hleaves⟩ := leaves_resume m completion
    exact hP.leaves hleaves (hP.same hm rfl rfl)
  fetchBlock := hP.fetchBlock
  restoreSnapshot hm s := hP.leaves ((turns_restoreSnapshot s).leaves _) hm
  attend := hP.attend
  restart := hP.restart

end

theorem ofEquipment_sameImage (n : Memory) : OfEquipment fun m => SameImage n m.memory where
  work _ himage hm := hm.trans himage
  decode _ hm := hm
  fetchBlock {m} hm := by
    obtain ⟨blocks, codec, hfetch⟩ := fetchBlock_run_snd m
    rw [hfetch]
    exact hm
  restart {m} hm := hm.trans <|
    ((Memory.sameImage_reset m.memory).trans (sameImage_withPrintingBits _ _)).trans
      (sameImage_setUpHeader _ _ _)

/-- The image lasts. -/
theorem lasting_sameImage (n : Memory) : Lasting fun m => SameImage n m.memory :=
  (ofEquipment_sameImage n).lasting

end Machine
end ZMachine
