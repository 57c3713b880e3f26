import Workshare.State.State

/-!
# Checkpoints of the state

A checkpoint is a journal level: `NewCheckpoint` pushes one and returns the
depth before it, `RevertTo` pops back to a depth. Between a checkpoint `r` and
its revert a caller runs setters, deletions, and checkpoints and reverts nested
inside `r`, that is reverts to depths above `r`. Every such run keeps the
levels below `r` and stays deeper than `r` (`State.Keeps`), so the revert to
`r` gives back the very state the checkpoint was taken on.
-/
namespace Workshare

/-- The state methods a caller may run after a checkpoint. -/
inductive StateOp
  | setBalance (addr : Address) (balance : ℤ)
  | setEnergy (addr : Address) (energy : ℤ) (blockTime : ℕ)
  | setMaster (addr master : Address)
  | setCode (addr : Address) (code : Bytes)
  | setStorage (addr : Address) (key value : Bytes32)
  | setRawStorage (addr : Address) (key : Bytes32) (raw : Bytes)
  | delete (addr : Address)
  | newCheckpoint
  | revertTo (revision : ℕ)

namespace StateOp

/-- The method an operation calls; a nested checkpoint's revision is dropped. -/
def method (keccak256 : Bytes → Bytes) : StateOp → Method Unit
  | .setBalance addr balance => Workshare.setBalance addr balance
  | .setEnergy addr energy blockTime => Workshare.setEnergy addr energy blockTime
  | .setMaster addr master => Workshare.setMaster addr master
  | .setCode addr code => Workshare.setCode keccak256 addr code
  | .setStorage addr key value => Workshare.setStorage addr key value
  | .setRawStorage addr key raw => Workshare.setRawStorage addr key raw
  | .delete addr => Workshare.delete addr
  | .newCheckpoint => fun s => .ok () (resultState (Workshare.newCheckpoint s))
  | .revertTo revision => Workshare.revertTo revision

/-- One operation; the caller goes on after a failed one with what it left. -/
def apply (keccak256 : Bytes → Bytes) (s : State) (op : StateOp) : State :=
  resultState (op.method keccak256 s)

/-- A run of operations. -/
def run (keccak256 : Bytes → Bytes) (s : State) (ops : List StateOp) : State :=
  ops.foldl (apply keccak256) s

@[simp] theorem run_nil (keccak256 : Bytes → Bytes) (s : State) : run keccak256 s [] = s := rfl

@[simp] theorem run_cons (keccak256 : Bytes → Bytes) (s : State) (op : StateOp) (ops : List StateOp) :
    run keccak256 s (op :: ops) = run keccak256 (apply keccak256 s op) ops := rfl

end StateOp

namespace State

theorem ext' {s t : State} (hc : s.committed = t.committed) (hs : s.sm = t.sm) : s = t := by
  cases s; cases t
  simp_all

/-- `s'` reads the same committed state as `s`, is deeper than `d` and keeps
the journal levels of `s` below `d`. -/
def Keeps (d : ℕ) (s s' : State) : Prop :=
  s'.committed = s.committed ∧ StackedMap.Keeps d s.sm s'.sm

theorem Keeps.put {d : ℕ} {s s' : State} (h : Keeps d s s') (k : StateKey) (v : StateValue) :
    Keeps d s (s'.put k v) :=
  ⟨h.1, h.2.put k v⟩

theorem Keeps.withAccountCopy {d : ℕ} {s s' : State} (h : Keeps d s s') (addr : Address)
    (update : Account → Account) : Keeps d s (resultState (withAccountCopy addr update s')) := by
  unfold Workshare.withAccountCopy
  split
  · exact h.put _ _
  · exact h

theorem Keeps.setRawStorage {d : ℕ} {s s' : State} (h : Keeps d s s') (addr : Address)
    (key : Bytes32) (raw : Bytes) : Keeps d s (resultState (setRawStorage addr key raw s')) :=
  h.put _ _

theorem Keeps.setCode {d : ℕ} {s s' : State} (h : Keeps d s s') (keccak256 : Bytes → Bytes)
    (addr : Address) (code : Bytes) : Keeps d s (resultState (Workshare.setCode keccak256 addr code s')) :=
  (h.put _ _).withAccountCopy addr _

theorem Keeps.setStorage {d : ℕ} {s s' : State} (h : Keeps d s s') (addr : Address)
    (key value : Bytes32) : Keeps d s (resultState (Workshare.setStorage addr key value s')) := by
  unfold Workshare.setStorage
  split
  · exact h.setRawStorage addr key _
  · exact h.setRawStorage addr key _

theorem Keeps.delete {d : ℕ} {s s' : State} (h : Keeps d s s') (addr : Address) :
    Keeps d s (resultState (Workshare.delete addr s')) :=
  ((h.put _ _).put _ _).put _ _

theorem Keeps.newCheckpoint {d : ℕ} {s s' : State} (h : Keeps d s s') :
    Keeps d s (resultState (Workshare.newCheckpoint s')) :=
  ⟨h.1, h.2.push⟩

/-- A checkpoint keeps every level of the state it is taken on. -/
theorem Keeps.newCheckpoint_self (s : State) :
    Keeps s.sm.mapStack.length s (resultState (Workshare.newCheckpoint s)) :=
  ⟨rfl, StackedMap.Keeps.push_self s.sm⟩

theorem Keeps.revertTo {d x : ℕ} {s s' : State} (h : Keeps d s s') (hx : d < x) :
    Keeps d s (resultState (Workshare.revertTo x s')) :=
  ⟨h.1, h.2.popTo hx⟩

/-- Reverting to `d` a state that kept the `d` levels of `s` gives `s` back. -/
theorem Keeps.revertTo_eq {d : ℕ} {s s' : State} (h : Keeps d s s')
    (hlen : s.sm.mapStack.length = d) : Workshare.revertTo d s' = .ok () s := by
  have hsm : s'.sm.popTo d = s.sm := h.2.popTo_eq hlen
  show EStateM.Result.ok () ⟨s'.committed, s'.sm.popTo d, _⟩ = .ok () s
  congr 1
  exact ext' h.1 hsm

/-- Every operation other than a revert at or below `d` keeps the levels below `d`. -/
theorem Keeps.apply {d : ℕ} {s s' : State} (h : Keeps d s s') (keccak256 : Bytes → Bytes)
    (op : StateOp) (hop : ∀ x, op = .revertTo x → d < x) : Keeps d s (op.apply keccak256 s') := by
  cases op with
  | setBalance addr balance => exact h.withAccountCopy addr _
  | setEnergy addr energy blockTime => exact h.withAccountCopy addr _
  | setMaster addr master => exact h.withAccountCopy addr _
  | setCode addr code => exact h.setCode keccak256 addr code
  | setStorage addr key value => exact h.setStorage addr key value
  | setRawStorage addr key raw => exact h.setRawStorage addr key raw
  | delete addr => exact h.delete addr
  | newCheckpoint => exact h.newCheckpoint
  | revertTo revision => exact h.revertTo (hop revision rfl)

/-- A run whose reverts all target depths above `d` keeps the levels below `d`. -/
theorem Keeps.run {d : ℕ} {s s' : State} (h : Keeps d s s') (keccak256 : Bytes → Bytes)
    (ops : List StateOp) (hops : ∀ x, StateOp.revertTo x ∈ ops → d < x) :
    Keeps d s (StateOp.run keccak256 s' ops) := by
  induction ops generalizing s' with
  | nil => exact h
  | cons op ops ih =>
    rw [StateOp.run_cons]
    apply ih
    · exact h.apply keccak256 op fun x hx => hops x (hx ▸ List.mem_cons_self)
    · exact fun x hx => hops x (List.mem_cons_of_mem op hx)

end State

/-- Reverting to a checkpoint after a run of operations nested inside it gives
back the state the checkpoint was taken on. -/
theorem revertTo_newCheckpoint (keccak256 : Bytes → Bytes) (s s₁ : State) (r : ℕ)
    (hcp : newCheckpoint s = .ok r s₁) (ops : List StateOp)
    (hops : ∀ x, StateOp.revertTo x ∈ ops → r < x) :
    revertTo r (StateOp.run keccak256 s₁ ops) = .ok () s := by
  -- the checkpoint returns the depth of `s` and leaves a state one level deeper
  obtain ⟨hr, hs₁⟩ : s.sm.mapStack.length = r ∧ resultState (newCheckpoint s) = s₁ := by
    simp only [newCheckpoint, EStateM.Result.ok.injEq] at hcp
    exact ⟨hcp.1, by rw [← hcp.2]; rfl⟩
  have hkeep : State.Keeps r s s₁ := hr ▸ hs₁ ▸ State.Keeps.newCheckpoint_self s
  exact (hkeep.run keccak256 ops hops).revertTo_eq hr

theorem revertTo_newCheckpoint_empty :
    revertTo 1 (StateOp.run (fun _ => [])
      (resultState (newCheckpoint (State.new .empty)))
      [.setBalance (Vector.replicate 20 1) 5, .newCheckpoint,
        .setStorage (Vector.replicate 20 1) (Vector.replicate 32 0) (Vector.replicate 32 7),
        .revertTo 2, .delete (Vector.replicate 20 1)]) = .ok () (State.new .empty) :=
  revertTo_newCheckpoint (fun _ => []) (State.new .empty) _ 1 rfl _ (by simp)

end Workshare
