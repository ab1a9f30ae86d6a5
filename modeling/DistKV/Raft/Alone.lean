import DistKV.Raft.FixedVoters
import DistKV.Raft.Records

/-!
# A cluster of one

`startElectionLocked` takes a node that is the only voter and has an empty log for one that has yet to
join a cluster, and lets it wait for a leader. A node that is *started* as the only voter looks the
same. It has nobody to wait for: in every run of such a cluster, whatever fails and whoever crashes, all
nodes stay followers of term 0 without an entry, no call is ever made, and every proposal is refused
(`single_voter_stuck`).
-/

namespace DistKV
namespace Raft

open Run (IsRun)

/-- A node to which nothing has happened. -/
structure Untouched (peers : List Nat) (i : Nat) (n : Node) : Prop where
  id : n.id = i
  role : n.role = .follower
  leaderID : n.leaderID = 0
  conf : n.conf = .newConfState peers
  term : n.store.term = 0
  log : n.store.log = []
  snapIndex : n.store.snapIndex = 0
  commitIndex : n.commitIndex = 0
  lastApplied : n.lastApplied = 0
  files : n.store.disk.files = {}

section Untouched

variable {peers : List Nat} {i : Nat} {n m : Node} {op : NodeOp} {eff : Effect}

theorem untouched_newNode (i : Nat) (addrs : Nat → Option Bytes) :
    Untouched peers i (Node.newNode i addrs { conf := .newConfState peers }) :=
  ⟨rfl, rfl, rfl, rfl, rfl, rfl, rfl, rfl, rfl, rfl⟩

theorem Untouched.withFaults (h : Untouched peers i n) (faults : List Bool) :
    Untouched peers i (n.withFaults faults) := { h with }

theorem Untouched.lastIndex (h : Untouched peers i n) : n.store.lastIndex = 0 := by
  rw [DiskStorage.lastIndex, h.log]
  exact h.snapIndex

/-- The test for a node that has yet to join says yes. -/
theorem Untouched.startElectionLocked (h : Untouched peers i n) (hone : peers.toFinset.card ≤ 1) :
    n.startElectionLocked = (n, []) := by
  rw [Node.startElectionLocked]
  split
  · rfl
  next hin =>
  have hmem : n.id ∈ peers.toFinset := by
    rw [h.conf] at hin
    simpa [ConfState.contains, ConfState.newConfState] using hin
  have hlen : n.conf.voterIDs.length = 1 := by
    rw [h.conf, ConfState.voterIDs, length_sortedKeys]
    exact Nat.le_antisymm hone (Finset.card_pos.mpr ⟨_, hmem⟩)
  rw [if_pos ⟨hlen, h.lastIndex.trans h.snapIndex.symm⟩]

/-- A snapshot of nothing is not saved. -/
theorem Untouched.snapshot (h : Untouched peers i n) (index : Nat) (data : Bytes) :
    (n.snapshot index data).1 = n := by
  rw [Node.snapshot]
  split
  · rfl
  next hle =>
  rw [h.lastApplied] at hle
  obtain rfl : index = 0 := Nat.eq_zero_of_not_pos hle
  split
  · rfl
  · simp only [DiskStorage.saveSnapshot, Nat.zero_le, if_true]

/-- A section that is about no message does nothing. -/
theorem Untouched.exec (h : Untouched peers i n) (hone : peers.toFinset.card ≤ 1)
    (hhandle : ∀ req, op ≠ .handle req) (hreply : ∀ peer req resp, op ≠ .reply peer req resp)
    (hex : n.exec op = some (m, eff)) :
    ∃ inflight, m = { n with inflight := inflight } ∧ eff.sends = [] := by
  have hlock := Node.exec_unlocked hex
  have hrole : n.role ≠ .leader := by rw [h.role]; decide
  cases op with
  | tick timedOut due =>
    simp only [Node.exec, hlock, Bool.false_eq_true, if_false] at hex
    have htick : n.tick timedOut due = (n, []) := by
      simp only [Node.tick, h.role, h.startElectionLocked hone, ite_self]
    rw [htick] at hex
    obtain ⟨rfl, rfl⟩ := Prod.mk.inj (Option.some.inj hex)
    exact ⟨n.inflight, rfl, rfl⟩
  | propose command =>
    simp only [Node.exec, hlock, Bool.false_eq_true, if_false] at hex
    rw [Node.propose, if_pos hrole] at hex
    obtain ⟨rfl, rfl⟩ := Prod.mk.inj (Option.some.inj hex)
    exact ⟨n.inflight, rfl, rfl⟩
  | proposeConfChange cc =>
    simp only [Node.exec, hlock, Bool.false_eq_true, if_false] at hex
    rw [Node.proposeConfChange, if_pos hrole] at hex
    obtain ⟨rfl, rfl⟩ := Prod.mk.inj (Option.some.inj hex)
    exact ⟨n.inflight, rfl, rfl⟩
  | snapshot index data =>
    simp only [Node.exec, hlock, Bool.false_eq_true, if_false] at hex
    rw [h.snapshot] at hex
    obtain ⟨rfl, rfl⟩ := Prod.mk.inj (Option.some.inj hex)
    exact ⟨n.inflight, rfl, rfl⟩
  | collect =>
    simp only [Node.exec, hlock, Bool.false_eq_true, if_false] at hex
    rw [Node.collect, h.commitIndex, Nat.zero_sub, Node.collectLoop] at hex
    obtain ⟨rfl, rfl⟩ := Prod.mk.inj (Option.some.inj hex)
    exact ⟨n.inflight, rfl, rfl⟩
  | handle req => exact absurd rfl (hhandle req)
  | reply peer req resp => exact absurd rfl (hreply peer req resp)
  | finish peer =>
    rw [Node.exec, if_neg (by rw [hlock]; decide)] at hex
    obtain ⟨rfl, rfl⟩ := Prod.mk.inj (Option.some.inj hex)
    exact ⟨_, rfl, rfl⟩

end Untouched

/-- Nothing is written, and no call is made. -/
def untouched (peers : List Nat) : Assertion where
  node := Untouched peers
  files _ f := f = {}
  call _ _ _ := False

theorem untouchedRule {cfg : Config} (hone : cfg.peers.toFinset.card ≤ 1) :
    Rule cfg (fun _ _ _ => True) (untouched cfg.peers) where
  init i := untouched_newNode i cfg.addrs
  files h := h.files
  recover {i f keep store} hf ho := by
    have hempty : f.crash keep = {} := by
      have hnone : f = {} := hf
      rw [hnone, Files.crash, List.take_nil]
      rfl
    rw [hempty] at ho
    obtain rfl := Option.some.inj ho
    exact untouched_newNode i cfg.addrs
  exec {i n faults op n' eff} _ hn _ hop hex := by
    have hhandle : ∀ req, op ≠ .handle req := by
      rintro req rfl
      exact hop.elim fun _ hfalse => hfalse
    have hreply : ∀ peer req resp, op ≠ .reply peer req resp := by
      rintro peer req resp rfl
      exact hop.1
    obtain ⟨inflight, rfl, hsends⟩ := (hn.withFaults faults).exec hone hhandle hreply hex
    refine ⟨{ hn with }, fun f hf => ?_, fun _ _ _ => trivial, fun s hs => ?_, fun _ _ _ _ => trivial⟩
    · exact absurd hf List.not_mem_nil
    · rw [hsends] at hs
      cases hs
  read _ hn hl _ _ _ _ _ := by
    rw [hn.role] at hl
    cases hl

/-- **A cluster that is started with one voter never starts.** In every run all nodes stay followers of
    term 0 that know of no leader, with nothing in their logs, no call between them is ever made, and
    every proposal is refused. -/
theorem single_voter_stuck (cfg : Config) (σ : Nat → Cluster) (α : Nat → Option Action)
    (hrun : IsRun (Cluster.step cfg) (Cluster.init cfg) σ α) (hone : cfg.peers.toFinset.card ≤ 1)
    (k i : Nat) :
    ((σ k).node i).role = .follower ∧ ((σ k).node i).store.term = 0 ∧
      ((σ k).node i).leaderID = 0 ∧ ((σ k).node i).store.log = [] ∧
      ((σ k).node i).commitIndex = 0 ∧ (σ k).calls = [] ∧
      ∀ command, ((σ k).node i).propose command = ((σ k).node i, .error .notLeader) := by
  have hall := (untouchedRule hone).run hrun (fun _ _ _ _ _ _ _ _ _ => trivial) k
  have hn : Untouched cfg.peers i ((σ k).node i) := hall.node i
  refine ⟨hn.role, hn.term, hn.leaderID, hn.log, hn.commitIndex, ?_, fun command => ?_⟩
  · cases hcalls : (σ k).calls with
    | nil => rfl
    | cons call rest =>
      have hfirst : (σ k).calls[0]? = some call := by rw [hcalls]; rfl
      exact (hall.call 0 call hfirst).1.elim
  · rw [Node.propose, if_pos (by rw [hn.role]; decide)]

/-- The only voter times out, twice, and is restarted. -/
def loneTimeouts : List Action :=
  [sec (.tick 5 true fun _ => true), .restart 5 none [] 0 0, sec (.tick 5 true fun _ => true)]

theorem single_voter_stuck_timeouts : ∃ σ : Nat → Cluster,
    IsRun (Cluster.step { peers := [5] }) (Cluster.init { peers := [5] }) σ
      (fun k => loneTimeouts[k]?) ∧
    ((σ 3).node 5).propose [7] = ((σ 3).node 5, .error .notLeader) := by
  refine ⟨_, IsRun.ofList (by decide +kernel), ?_⟩
  exact (single_voter_stuck { peers := [5] } _ (fun k => loneTimeouts[k]?)
    (IsRun.ofList (by decide +kernel)) (by decide) 3 5).2.2.2.2.2.2 [7]

end Raft
end DistKV
