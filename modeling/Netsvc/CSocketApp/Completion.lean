import Netsvc.CSocketApp.LockStep

/-! The exchange comes to an end: every step brings one of the peers nearer to it,
and it cannot stop before all results are reported. -/
namespace Netsvc.CSocketApp
open Netsvc.Library.ByteOrder Netsvc.Library.Transition

variable {setup : Setup} {hosting : Bool} {order : Order} {action : Action} {p p' : Peer}

def Peer.remaining (setup : Setup) (p : Peer) : Nat :=
  match p.point with
  | .loop => 6 * (setup.maxMessages - p.i) + 1
  | .sending => 6 * (setup.maxMessages - (p.i + 1)) + 6
  | .joining => 6 * (setup.maxMessages - (p.i + 1)) + 5
  | .reading => 6 * (setup.maxMessages - (p.i + 1)) + 4
  | .received => 6 * (setup.maxMessages - (p.i + 1)) + 3
  | .replying => 6 * (setup.maxMessages - (p.i + 1)) + 2
  | .exited => 0

theorem Peer.Step.remaining_lt (h : Peer.Step setup hosting order p action p') :
    p'.remaining setup < p.remaining setup := by
  cases h with
  | create hp hi | await hp hi =>
    simp only [Peer.remaining, hp]
    omega
  | run hp | join hp | read _ hp | index _ hp | indexExit hp | reply hp | result hp | close hp =>
    simp [Peer.remaining, hp]

structure Peer.InRange (setup : Setup) (p : Peer) : Prop where
  i_le : p.i ≤ setup.maxMessages
  i_lt : p.point ≠ .loop → p.point ≠ .exited → p.i < setup.maxMessages

theorem Peer.InRange.step (h : p.InRange setup)
    (hstep : Peer.Step setup hosting order p action p') : p'.InRange setup := by
  cases hstep with
  | create hp hi | await hp hi => exact ⟨h.i_le, fun _ _ => hi⟩
  | run hp | join hp | read _ hp | index _ hp =>
    have hlt := h.i_lt (by simp [hp]) (by simp [hp])
    exact ⟨h.i_le, fun _ _ => hlt⟩
  | reply hp | result hp =>
    have hlt := h.i_lt (by simp [hp]) (by simp [hp])
    exact ⟨hlt, fun hloop => absurd rfl hloop⟩
  | indexExit | close => exact ⟨h.i_le, fun _ hexited => absurd rfl hexited⟩

def Exchange.remaining (setup : Setup) (x : Exchange) : Nat :=
  x.host.remaining setup + x.secondary.remaining setup

theorem Exchange.Step.remaining_lt {x x' : Exchange} {e : Side × Action}
    (h : Exchange.Step setup x e x') : x'.remaining setup < x.remaining setup := by
  cases h with
  | host hstep _ => exact Nat.add_lt_add_right hstep.remaining_lt _
  | secondary hstep _ => exact Nat.add_lt_add_left hstep.remaining_lt _

theorem Exchange.host_inRange {x : Exchange}
    (h : Reachable (Exchange.Step setup) Exchange.start x) : x.host.InRange setup := by
  refine h.invariant (fun y => y.host.InRange setup) (fun y e z hy hstep => ?_)
    ⟨Nat.zero_le _, fun hloop => absurd rfl hloop⟩
  cases hstep with
  | host hstep _ => exact hy.step hstep
  | secondary => exact hy

theorem Peer.Ready.le_of_exited {k : Nat} (h : p.Ready setup k) (hexited : p.point = .exited) :
    setup.maxMessages ≤ p.i := by
  have hpoint := h.point_mem
  rw [h.hosting.i_eq]
  simpa [hexited] using hpoint

theorem Peer.Waiting.point_ne_exited {k : Nat} (h : p.Waiting setup k) : p.point ≠ .exited := by
  intro hexited
  have hpoint := h.point_mem
  simp [hexited] at hpoint

theorem Phase.le_of_host_exited {x : Exchange} (h : Phase setup x)
    (hexited : x.host.point = .exited) : setup.maxMessages ≤ x.host.i := by
  cases h with
  | calling hhost _ => exact hhost.le_of_exited hexited
  | called hhost _ | asked hhost _ | replying hhost _ => exact absurd hexited hhost.point_ne_exited
  | replied hhost _ _ => exact absurd hexited hhost.point_ne_exited
  | answered hhost _ => exact absurd (hexited.symm.trans hhost.point_eq) (by decide)

theorem Exchange.exists_final (x : Exchange) :
    ∃ y, Reachable (Exchange.Step setup) x y ∧ Final (Exchange.Step setup) y :=
  exists_final_of_decreasing (fun _ _ _ hstep => hstep.remaining_lt) x

theorem Exchange.complete {x : Exchange} (hreach : Reachable (Exchange.Step setup) .start x)
    (hfinal : Final (Exchange.Step setup) x) :
    (x.host.point = .exited ∧ x.secondary.point = .exited) ∧
      x.host.results.map some = setup.reports setup.maxMessages := by
  have hphase := Phase.of_reachable hreach
  have hexited : x.host.point = .exited ∧ x.secondary.point = .exited :=
    hphase.progress.resolve_right fun ⟨e, x', hstep⟩ => hfinal e x' hstep
  have hdone : x.host.i = setup.maxMessages :=
    le_antisymm (Exchange.host_inRange hreach).i_le (hphase.le_of_host_exited hexited.1)
  have hresults := hphase.hosting.results_eq
  rw [hdone] at hresults
  exact ⟨hexited, hresults⟩

/-- Every run is short, and where none of the two can go on both have left and the
host has reported the results of all its indexes. -/
theorem exchange_completes (setup : Setup) :
    (∀ run, Run (Exchange.Step setup) Exchange.start run →
      run.length ≤ 2 * (6 * setup.maxMessages + 1)) ∧
    ∀ x, Reachable (Exchange.Step setup) Exchange.start x → Final (Exchange.Step setup) x →
      (x.host.point = .exited ∧ x.secondary.point = .exited) ∧
        x.host.results.map some = setup.reports setup.maxMessages := by
  constructor
  · intro run hrun
    have hstart : Exchange.remaining setup .start = 2 * (6 * setup.maxMessages + 1) := by
      simp [Exchange.remaining, Exchange.start, Peer.remaining, Peer.start]
      omega
    rw [← hstart]
    exact hrun.length_le_rank fun _ _ _ hstep => hstep.remaining_lt
  · exact fun x hreach hfinal => Exchange.complete hreach hfinal

end Netsvc.CSocketApp
