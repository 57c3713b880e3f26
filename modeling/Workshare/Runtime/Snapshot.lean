import Workshare.Runtime.StateDB

/-!
# Snapshots of the EVM's state view

A run of EVM calls on a `StateDB`, with the snapshots it may revert to: a
revert to a snapshot drops that snapshot and every later one, as the EVM never
reverts to a snapshot it has reverted past. After a snapshot `r` taken on
`db₀`, every run whose reverts target live later snapshots stays `Inside`:
the repo keeps the levels below `r` (the top of which holds the state revision
`srev` of the snapshot), the state keeps its levels below `srev`, and each live
later snapshot is above `r`, below the repo depth, and sees under `stateRevKey`
a state revision above `srev`. The revert to `r` then restores the state and
everything the EVM reads from the repo.
-/
namespace Workshare

/-- The calls of the EVM on its `StateDB`. -/
inductive VMOp
  | addBalance (addr : Address) (amount : ℤ)
  | subBalance (addr : Address) (amount : ℤ)
  | setCode (addr : Address) (code : Bytes)
  | setState (addr : Address) (key value : Bytes32)
  | suicide (addr : Address)
  | addRefund (gas : UInt64)
  | addPreimage (hash : Bytes32) (preimage : Bytes)
  | addLog (ev : Event)
  | addTransfer (t : Transfer)
  | snapshot
  | revertToSnapshot (rev : ℕ)

namespace VMOp

/-- One call; a snapshot also returns its revision. -/
def step (keccak256 : Bytes → Bytes) : VMOp → StateDB → Except Panic (Option ℕ × StateDB)
  | .addBalance addr amount, db => (StateDB.addBalance addr amount db).map fun p => (none, p.2)
  | .subBalance addr amount, db => (StateDB.subBalance addr amount db).map fun p => (none, p.2)
  | .setCode addr code, db => (StateDB.setCode keccak256 addr code db).map fun p => (none, p.2)
  | .setState addr key value, db => (StateDB.setState addr key value db).map fun p => (none, p.2)
  | .suicide addr, db => (StateDB.suicide addr db).map fun p => (none, p.2)
  | .addRefund gas, db => .ok (none, db.addRefund gas)
  | .addPreimage hash preimage, db => .ok (none, db.addPreimage hash preimage)
  | .addLog ev, db => .ok (none, db.addLog ev)
  | .addTransfer t, db => .ok (none, db.addTransfer t)
  | .snapshot, db => (StateDB.snapshot db).map fun p => (some p.1, p.2)
  | .revertToSnapshot rev, db => (StateDB.revertToSnapshot rev db).map fun p => (none, p.2)

/-- The snapshots not yet reverted past, after a call. -/
def nextLive (live : List ℕ) : VMOp → Option ℕ → List ℕ
  | .revertToSnapshot rev, _ => live.filter (· < rev)
  | .snapshot, some r => live ++ [r]
  | _, _ => live

/-- A run of calls; the first panic ends it. -/
def run (keccak256 : Bytes → Bytes) : List VMOp → StateDB → Except Panic StateDB
  | [], db => .ok db
  | op :: ops, db => (op.step keccak256 db).bind fun p => run keccak256 ops p.2

/-- Every revert of the run targets a live snapshot. -/
def RevertsLive (keccak256 : Bytes → Bytes) : List ℕ → List VMOp → StateDB → Prop
  | _, [], _ => True
  | live, op :: ops, db =>
    (∀ rev, op = .revertToSnapshot rev → rev ∈ live) ∧
    ∀ res db', op.step keccak256 db = .ok (res, db') →
      RevertsLive keccak256 (nextLive live op res) ops db'

/-- A call that reports no revision leaves the db its method left. -/
theorem ok_of_map_none {α : Type} {x : Except Panic (α × StateDB)} {res : Option ℕ}
    {db' : StateDB} (h : x.map (fun p => (none, p.2)) = .ok (res, db')) :
    res = none ∧ ∃ a, x = .ok (a, db') := by
  obtain ⟨⟨a, db''⟩, hx, heq⟩ := Except.map_eq_ok_iff.mp h
  cases heq
  exact ⟨rfl, a, hx⟩

end VMOp

/-- A db met in a run after the snapshot `r` of state revision `srev`, taken on
a db whose state is `s₀` and whose repo became `base` by the snapshot's write. -/
structure Inside (r srev : ℕ) (s₀ : State) (base : StackedMap RepoKey RepoValue Panic)
    (live : List ℕ) (db : StateDB) : Prop where
  repo : StackedMap.Keeps r base db.repo
  state : State.Keeps srev s₀ db.state
  live_above : ∀ x ∈ live, r < x
  live_below : ∀ x ∈ live, x < db.repo.mapStack.length
  live_rev : ∀ x ∈ live, ∃ s', srev < s' ∧
    Layered.lookup (layersOf (db.repo.mapStack.take x)) .stateRev = some (.stateRev s')

namespace Inside

variable {r srev : ℕ} {s₀ : State} {base : StackedMap RepoKey RepoValue Panic} {live : List ℕ}
  {db : StateDB}

theorem putRepo (h : Inside r srev s₀ base live db) (k : RepoKey) (v : RepoValue) :
    Inside r srev s₀ base live (db.putRepo k v) where
  repo := h.repo.put k v
  state := h.state
  live_above := h.live_above
  live_below x hx := by
    simpa [StateDB.putRepo, StackedMap.length_put] using h.live_below x hx
  live_rev x hx := by
    simpa [StateDB.putRepo, StackedMap.take_put _ _ _ (h.live_below x hx)] using h.live_rev x hx

theorem withState (h : Inside r srev s₀ base live db) {s : State} (hs : State.Keeps srev s₀ s) :
    Inside r srev s₀ base live (db.withState s) :=
  ⟨h.repo, hs, h.live_above, h.live_below, h.live_rev⟩

/-- A state method that keeps the levels below `srev` keeps the db inside. -/
theorem liftState {α : Type} (h : Inside r srev s₀ base live db) {m : Method α}
    (hm : ∀ s, State.Keeps srev s₀ s → State.Keeps srev s₀ (resultState (m s)))
    {a : α} {db' : StateDB} (hstep : StateDB.liftState m db = .ok (a, db')) :
    Inside r srev s₀ base live db' := by
  unfold StateDB.liftState at hstep
  split at hstep
  · rename_i a' s hms
    cases hstep
    have hk := hm db.state h.state
    rw [hms] at hk
    exact h.withState hk
  · cases hstep

theorem changeBalance (h : Inside r srev s₀ base live db) {combine : ℤ → ℤ → ℤ}
    {addr : Address} {amount : ℤ} {u : Unit} {db' : StateDB}
    (hstep : StateDB.changeBalance combine addr amount db = .ok (u, db')) :
    Inside r srev s₀ base live db' := by
  unfold StateDB.changeBalance at hstep
  split at hstep
  · cases hstep
    exact h
  · obtain ⟨balance, -, hset⟩ := Except.bind_eq_ok_iff.mp hstep
    exact h.liftState (fun s hs => hs.withAccountCopy addr _) hset

theorem suicide (h : Inside r srev s₀ base live db) {addr : Address} {b : Bool} {db' : StateDB}
    (hstep : StateDB.suicide addr db = .ok (b, db')) : Inside r srev s₀ base live db' := by
  obtain ⟨exist, -, hex⟩ := Except.bind_eq_ok_iff.mp hstep
  split at hex
  · cases hex
    exact (h.withState (h.state.delete addr)).putRepo _ _
  · cases hex
    exact h

/-- A repo push over a level that records a state revision above `srev` makes
the depth pushed over a live snapshot. -/
theorem pushRepo (h : Inside r srev s₀ base live db) {s' : ℕ} (hs' : srev < s')
    (htop : Layered.lookup (layersOf db.repo.mapStack) .stateRev = some (.stateRev s')) :
    Inside r srev s₀ base (live ++ [db.pushRepo.1]) db.pushRepo.2 where
  repo := h.repo.push
  state := h.state
  live_above x hx := by
    rcases List.mem_append.mp hx with hx | hx
    · exact h.live_above x hx
    · rw [List.mem_singleton.mp hx, StateDB.pushRepo_fst]
      exact h.repo.2.1
  live_below x hx := by
    have hlt : x < db.repo.mapStack.length + 1 := by
      rcases List.mem_append.mp hx with hx | hx
      · exact Nat.lt_succ_of_lt (h.live_below x hx)
      · simp [List.mem_singleton.mp hx]
    simpa using hlt
  live_rev x hx := by
    rw [StateDB.repo_pushRepo]
    rcases List.mem_append.mp hx with hx | hx
    · rw [StackedMap.take_push _ (h.live_below x hx).le]
      exact h.live_rev x hx
    · rw [List.mem_singleton.mp hx, StateDB.pushRepo_fst, StackedMap.take_push _ (le_refl _),
        List.take_length]
      exact ⟨s', hs', htop⟩

/-- A snapshot takes a state checkpoint deeper than `srev` and becomes live. -/
theorem snapshot (h : Inside r srev s₀ base live db) {r' : ℕ} {db' : StateDB}
    (hstep : db.snapshot = .ok (r', db')) : Inside r srev s₀ base (live ++ [r']) db' := by
  rw [StateDB.snapshot_eq] at hstep
  obtain ⟨rfl, rfl⟩ := Prod.ext_iff.mp (Except.ok.inj hstep)
  have hin := (h.withState h.state.newCheckpoint).putRepo .stateRev
    (.stateRev db.state.sm.mapStack.length)
  exact hin.pushRepo h.state.2.2.1 (StackedMap.lookup_put_self db.repo _ _ db.repo_ne)

/-- A revert to a live snapshot reverts the state to a revision above `srev`;
the snapshots from the target on are no longer live. -/
theorem revertToSnapshot (h : Inside r srev s₀ base live db) {rev : ℕ} (hrev : rev ∈ live)
    {u : Unit} {db' : StateDB} (hstep : db.revertToSnapshot rev = .ok (u, db')) :
    Inside r srev s₀ base (live.filter (· < rev)) db' := by
  obtain ⟨s', hs', hlk⟩ := h.live_rev rev hrev
  have hget : (db.repo.popTo rev).get .stateRev = .ok (.stateRev s', true) := by
    rw [StackedMap.get_eq_lookup, StackedMap.mapStack_popTo, hlk]
  rw [StateDB.revertToSnapshot_eq_ok hget] at hstep
  obtain ⟨-, rfl⟩ := Prod.ext_iff.mp (Except.ok.inj hstep)
  have hbelow := h.live_below rev hrev
  refine ⟨h.repo.popTo (h.live_above rev hrev), h.state.revertTo hs', ?_, ?_, ?_⟩
  · intro x hx
    exact h.live_above x (List.mem_of_mem_filter hx)
  · intro x hx
    have hx' : x < rev := by simpa using (List.mem_filter.mp hx).2
    simp only [StateDB.repo_withState, StateDB.repo_popRepo, StackedMap.mapStack_popTo,
      List.length_take]
    omega
  · intro x hx
    have hx' : x < rev := by simpa using (List.mem_filter.mp hx).2
    simp only [StateDB.repo_withState, StateDB.repo_popRepo, StackedMap.mapStack_popTo,
      List.take_take, Nat.min_eq_left hx'.le]
    exact h.live_rev x (List.mem_filter.mp hx).1

/-- Every call keeps the db inside, a revert provided that it targets a live snapshot. -/
theorem step (keccak256 : Bytes → Bytes) (h : Inside r srev s₀ base live db) {op : VMOp}
    (hop : ∀ rev, op = .revertToSnapshot rev → rev ∈ live) {res : Option ℕ} {db' : StateDB}
    (hstep : op.step keccak256 db = .ok (res, db')) :
    Inside r srev s₀ base (op.nextLive live res) db' := by
  cases op with
  | addBalance addr amount =>
    obtain ⟨rfl, _, hm⟩ := VMOp.ok_of_map_none hstep
    exact h.changeBalance hm
  | subBalance addr amount =>
    obtain ⟨rfl, _, hm⟩ := VMOp.ok_of_map_none hstep
    exact h.changeBalance hm
  | setCode addr code =>
    obtain ⟨rfl, _, hm⟩ := VMOp.ok_of_map_none hstep
    exact h.liftState (fun s hs => hs.setCode keccak256 addr code) hm
  | setState addr key value =>
    obtain ⟨rfl, _, hm⟩ := VMOp.ok_of_map_none hstep
    exact h.liftState (fun s hs => hs.setStorage addr key value) hm
  | suicide addr =>
    obtain ⟨rfl, _, hm⟩ := VMOp.ok_of_map_none hstep
    exact h.suicide hm
  -- the repo writes: a refund, a preimage, a log, a transfer
  | addRefund gas => cases hstep; exact h.putRepo _ _
  | addPreimage hash preimage => cases hstep; exact h.putRepo _ _
  | addLog ev => cases hstep; exact h.putRepo _ _
  | addTransfer t => cases hstep; exact h.putRepo _ _
  | snapshot =>
    unfold VMOp.step at hstep
    obtain ⟨⟨r', db''⟩, hm, heq⟩ := Except.map_eq_ok_iff.mp hstep
    cases heq
    exact h.snapshot hm
  | revertToSnapshot rev =>
    obtain ⟨rfl, _, hm⟩ := VMOp.ok_of_map_none hstep
    exact h.revertToSnapshot (hop rev rfl) hm

/-- A run whose reverts target live snapshots stays inside. -/
theorem run (keccak256 : Bytes → Bytes) (ops : List VMOp) :
    ∀ {live : List ℕ} {db db' : StateDB}, Inside r srev s₀ base live db →
      VMOp.RevertsLive keccak256 live ops db → VMOp.run keccak256 ops db = .ok db' →
      ∃ live', Inside r srev s₀ base live' db' := by
  induction ops with
  | nil =>
    intro live db db' h _ hrun
    cases hrun
    exact ⟨live, h⟩
  | cons op ops ih =>
    intro live db db' h hlive hrun
    obtain ⟨⟨res, db₁⟩, hstep, hrest⟩ := Except.bind_eq_ok_iff.mp hrun
    exact ih (h.step keccak256 hlive.1 hstep) (hlive.2 res db₁ hstep) hrest

end Inside

/-- Reverting to a snapshot after a run whose reverts target later live
snapshots restores the state and what the EVM reads from the repo: the refund,
the suicide flags and the logs. -/
theorem revertToSnapshot_snapshot (keccak256 : Bytes → Bytes) (db₀ db₁ : StateDB) (r : ℕ)
    (hsnap : db₀.snapshot = .ok (r, db₁)) (ops : List VMOp)
    (hlive : VMOp.RevertsLive keccak256 [] ops db₁) (db₂ : StateDB)
    (hrun : VMOp.run keccak256 ops db₁ = .ok db₂) :
    ∃ db₃, db₂.revertToSnapshot r = .ok ((), db₃) ∧ db₃.state = db₀.state ∧
      db₃.getRefund = db₀.getRefund ∧ (∀ addr, db₃.hasSuicided addr = db₀.hasSuicided addr) ∧
      db₃.getLogs = db₀.getLogs := by
  -- the snapshot records the state's depth `srev` in the top repo level, giving `base`
  set srev := db₀.state.sm.mapStack.length
  set base := db₀.repo.put .stateRev (.stateRev srev)
  rw [StateDB.snapshot_eq] at hsnap
  obtain ⟨hr, rfl⟩ := Prod.ext_iff.mp (Except.ok.inj hsnap)
  have hr' : r = base.mapStack.length := hr.symm
  subst hr'
  have hstart : Inside base.mapStack.length srev db₀.state base []
      ((db₀.withState (resultState (newCheckpoint db₀.state))).putRepo
        .stateRev (.stateRev srev)).pushRepo.2 :=
    ⟨StackedMap.Keeps.push_self base, State.Keeps.newCheckpoint_self db₀.state, by simp, by simp,
      by simp⟩
  obtain ⟨live, hend⟩ := hstart.run keccak256 ops hlive hrun
  -- popping back to the snapshot's depth finds `base` and its revision `srev`
  have hrepo : db₂.repo.popTo base.mapStack.length = base := hend.repo.popTo_eq rfl
  have hget : (db₂.repo.popTo base.mapStack.length).get .stateRev = .ok (.stateRev srev, true) := by
    rw [hrepo]
    exact StackedMap.get_put_self _ _ _ db₀.repo_ne
  refine ⟨_, StateDB.revertToSnapshot_eq_ok hget, ?_, ?_, ?_, ?_⟩
  · rw [StateDB.state_withState, hend.state.revertTo_eq rfl]
    rfl
  · simp only [StateDB.getRefund, StateDB.repo_withState, StateDB.repo_popRepo, hrepo, base,
      StackedMap.get_put_ne _ _ (by simp : RepoKey.refund ≠ .stateRev)]
  · intro addr
    simp only [StateDB.hasSuicided, StateDB.repo_withState, StateDB.repo_popRepo, hrepo, base,
      StackedMap.get_put_ne _ _ (by simp : RepoKey.suicideFlag addr ≠ .stateRev)]
  · -- the revision entry journaled by the snapshot is neither an event nor a transfer
    simp [StateDB.getLogs, hrepo, base, StackedMap.journal_put _ _ _ db₀.repo_ne, StateDB.eventOf,
      StateDB.transferOf]

theorem revertToSnapshot_snapshot_new :
    ∃ db₁ db₂, (StateDB.new (State.new .empty)).snapshot = .ok (1, db₁) ∧
      VMOp.RevertsLive (fun _ => []) []
        [.addRefund 3, .snapshot, .addLog ⟨Vector.replicate 20 1, [], [1]⟩, .revertToSnapshot 2,
          .suicide (Vector.replicate 20 1)] db₁ ∧
      VMOp.run (fun _ => [])
        [.addRefund 3, .snapshot, .addLog ⟨Vector.replicate 20 1, [], [1]⟩, .revertToSnapshot 2,
          .suicide (Vector.replicate 20 1)] db₁ = .ok db₂ ∧
      ∃ db₃, db₂.revertToSnapshot 1 = .ok ((), db₃) ∧
        db₃.state = (StateDB.new (State.new .empty)).state ∧
        db₃.getRefund = (StateDB.new (State.new .empty)).getRefund ∧
        (∀ addr, db₃.hasSuicided addr = (StateDB.new (State.new .empty)).hasSuicided addr) ∧
        db₃.getLogs = (StateDB.new (State.new .empty)).getLogs := by
  refine ⟨_, _, rfl, ?hlive, rfl,
    revertToSnapshot_snapshot (fun _ => []) _ _ 1 rfl _ ?hlive _ rfl⟩
  simp [VMOp.RevertsLive, VMOp.step, VMOp.nextLive, StateDB.snapshot_eq, StateDB.addRefund,
    StateDB.addLog, StackedMap.length_put]

end Workshare
