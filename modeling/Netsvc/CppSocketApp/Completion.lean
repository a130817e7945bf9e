import Netsvc.CppSocketApp.Exchange

/-! The exchange of `host.cpp` comes to its end, and what the host has got by then
depends on the byte orders of the two machines. -/
namespace Netsvc.CppSocketApp
open Netsvc.Library.ByteOrder Netsvc.Library.RequestReply Netsvc.Library.Transition

section Ending
variable {setup : Setup} {x : Exchange} {c : Calls Int32}

def Peer.remaining (p : Peer) : ℕ :=
  match p.point with
  | .loop => 4 * (10 - p.i) + 1
  | .reading => 4 * (10 - (p.i + 1)) + 4
  | .received => 4 * (10 - (p.i + 1)) + 3
  | .replying => 4 * (10 - (p.i + 1)) + 2
  | .exited => 0

theorem Peer.Step.remaining_lt {order : Order} {gone : Prop} {hosting : Bool} {p q : Peer}
    {action : Action} (h : Peer.Step setup order gone hosting p action q) :
    q.remaining < p.remaining := by
  cases h with
  | run hi | await hi | runPipe hi =>
    simp only [Peer.remaining]
    omega
  | read | readEnd | index | overflow | reply | result | close | replyPipe =>
    simp [Peer.remaining]

def Exchange.remaining (x : Exchange) : ℕ := x.host.remaining + x.secondary.remaining

theorem Exchange.Step.remaining_lt {e : Side × Action} {y : Exchange}
    (h : Exchange.Step setup x e y) : y.remaining < x.remaining := by
  cases h with
  | host hstep _ => exact Nat.add_lt_add_right hstep.remaining_lt _
  | secondary hstep _ => exact Nat.add_lt_add_left hstep.remaining_lt _

theorem Exchange.exists_final (x : Exchange) :
    ∃ y, Reachable (Exchange.Step setup) x y ∧ Final (Exchange.Step setup) y :=
  exists_final_of_decreasing (fun _ _ _ hstep => hstep.remaining_lt) x

theorem Phase.progress (h : Phase setup x c) :
    x.host.point = .exited ∧ x.secondary.point = .exited ∨ ∃ e y, Exchange.Step setup x e y := by
  cases h with
  | @calling h s k n m served results hhost hidle hresults hserved =>
    rcases hhost with rfl | ⟨rfl, hdone⟩
    · rcases Nat.lt_or_ge k 10 with hk | hk
      · exact .inr ⟨_, _, .host (.run hk) .send⟩
      · exact .inr ⟨_, _, .host (.close hk) .none⟩
    · rcases hidle with rfl | ⟨rfl, hk⟩ | ⟨rfl, -⟩
      · exact .inr ⟨_, _, .secondary (.close hdone) .none⟩
      · exact absurd hk (Nat.not_lt.mpr hdone)
      · exact .inl ⟨rfl, rfl⟩
  | called hk hidle =>
    rcases hidle with rfl | ⟨rfl, -⟩ | ⟨-, hdone⟩
    · exact .inr ⟨_, _, .secondary (.await hk) .none⟩
    · exact .inr ⟨_, _, .secondary (.read _) .receive⟩
    · exact absurd hk (Nat.not_lt.mpr hdone)
  | @asked k =>
    cases hfib : fibonacci setup.depth (setup.toSecondary (setup.request k)) with
    | none => exact .inr ⟨_, _, .secondary (.overflow hfib) .none⟩
    | some fib => exact .inr ⟨_, _, .secondary (.index fib hfib) .none⟩
  | replying => exact .inr ⟨_, _, .secondary .reply .send⟩
  | replied => exact .inr ⟨_, _, .host (.read _) .receive⟩
  | answered => exact .inr ⟨_, _, .host .result .none⟩
  | @failed _ asked _ _ _ _ hhost =>
    cases hhost with
    | loop =>
      rcases Nat.lt_or_ge asked 10 with hi | hi
      · exact .inr ⟨_, _, .host (.run hi) .send⟩
      · exact .inr ⟨_, _, .host (.close hi) .none⟩
    | reading => exact .inr ⟨_, _, .host (.readEnd 0 rfl) .receiveEnd⟩
    | received => exact .inr ⟨_, _, .host .result .none⟩
    | exited => exact .inl ⟨rfl, rfl⟩

theorem Phase.secondary_i (h : Phase setup x c) : x.secondary.i = c.served.length := by
  cases h with
  | calling _ _ _ hserved | called _ _ _ hserved | asked _ _ hserved => exact hserved.symm
  | replying _ _ _ hserved | failed _ _ _ _ _ hserved => exact hserved.symm
  | replied _ _ _ hserved | answered _ _ _ hserved =>
    rw [List.length_append, hserved]
    rfl

theorem Phase.results_eq (h : Phase setup x c) : x.host.results = c.results := by
  cases h <;> rfl

theorem Phase.done (h : Phase setup x c) (hhost : x.host.point = .exited)
    (hall : ∀ k < 10, setup.service.answer (setup.service.request k) ≠ none) :
    10 ≤ c.results.length ∧ 10 ≤ c.served.length := by
  cases h with
  | @calling _ _ k _ _ _ _ hpoint _ hresults hserved =>
    obtain rfl : _ = Point.exited := hhost
    have hdone : 10 ≤ k := by simpa using hpoint
    exact ⟨hresults ▸ hdone, hserved ▸ hdone⟩
  | called | asked | replying | replied | answered => cases hhost
  | failed _ hk _ hfailed => exact absurd hfailed (hall _ hk)

end Ending

/-- Whatever the byte orders are, every run is short, and it ends with both processes. -/
theorem exchange_ends (setup : Setup) (hostNumb secondaryNumb : Int32) :
    (∀ run, Run (Exchange.Step setup) (.start hostNumb secondaryNumb) run → run.length ≤ 82) ∧
    (∃ x, Reachable (Exchange.Step setup) (.start hostNumb secondaryNumb) x ∧
      Final (Exchange.Step setup) x) ∧
    ∀ x, Reachable (Exchange.Step setup) (.start hostNumb secondaryNumb) x →
      Final (Exchange.Step setup) x → x.host.point = .exited ∧ x.secondary.point = .exited := by
  refine ⟨fun run hrun => ?_, Exchange.exists_final _, fun x hreach hfinal => ?_⟩
  · exact hrun.length_le_rank fun _ _ _ hstep => hstep.remaining_lt
  · obtain ⟨c, -, hphase⟩ :=
      (exchange_simulates setup).reachable (Phase.start setup _ _) hreach
    exact hphase.progress.resolve_right fun ⟨e, y, hstep⟩ => hfinal e y hstep

namespace Setup
variable (setup : Setup)

def fibNumbers (k : ℕ) : List Int32 :=
  (List.range k).map fun j => Int32.ofNat (Nat.fib (setup.fibInput j))

def Understood (k : ℕ) : Prop := setup.hostOrder = setup.secondaryOrder ∨ setup.fibInput k = 0

variable {setup}

theorem answer_request {k : ℕ} (h : setup.Understood k) :
    setup.service.answer (setup.service.request k) =
      some (Int32.ofNat (Nat.fib (setup.fibInput k))) := by
  have hdepth : (setup.fibInput k : ℕ) < setup.depth := by
    have hlt := (setup.fibInput k).isLt
    have hdeep := setup.deepEnough
    omega
  have hfib : fibonacci setup.depth (setup.request k) =
      some (Int32.ofNat (Nat.fib (setup.fibInput k))) :=
    fibonacci_ofNat (by omega) hdepth
  unfold service toSecondary toHost
  rcases h with hsame | hzero
  · simp only [hsame, readData_writeData, hfib, Option.map_some]
  · have hdata (order order' : Order) : readData order (writeData order' 0) = 0 := by
      cases order <;> cases order' <;> decide
    have hrequest : setup.request k = 0 := congrArg (fun n : Fin 30 => Int32.ofNat n) hzero
    rw [hrequest, hzero] at hfib
    simp only [hrequest, hdata, hfib, hzero, Option.map_some]
    exact congrArg some (hdata _ _)

theorem le_toSecondary_request {k : ℕ} (h : ¬setup.Understood k) :
    2 ^ 24 ≤ (setup.toSecondary (setup.request k)).toInt := by
  obtain ⟨hdiffer, hnonzero⟩ := not_or.mp h
  have hlarge : ∀ n : Fin 30, n ≠ 0 →
      2 ^ 24 ≤ (readData .big (writeData .little (Int32.ofNat n))).toInt ∧
      2 ^ 24 ≤ (readData .little (writeData .big (Int32.ofNat n))).toInt := by decide +kernel
  unfold toSecondary
  cases hhost : setup.hostOrder <;> cases hsecondary : setup.secondaryOrder
  · exact absurd (hhost.trans hsecondary.symm) hdiffer
  · exact (hlarge _ hnonzero).1
  · exact (hlarge _ hnonzero).2
  · exact absurd (hhost.trans hsecondary.symm) hdiffer

end Setup

theorem fibonacci_eq_none {depth : ℕ} {n : Int32} (h : depth + 2 ≤ n.toInt) :
    fibonacci depth n = none := by
  induction depth generalizing n with
  | zero => rfl
  | succ depth ih =>
    have hne {m : Int32} (hm : m.toInt ≤ 2) : n ≠ m := by
      rintro rfl
      omega
    have hone : 1 ≤ n := by
      apply Int32.le_iff_toInt_le.mpr
      have hvalue : (1 : Int32).toInt = 1 := rfl
      omega
    have hpred : (n - 1).toInt = n.toInt - 1 := Int32.toInt_sub_of_le n 1 (by decide) hone
    unfold fibonacci
    rw [if_neg (hne (by decide)), if_neg (not_or.mpr ⟨hne (by decide), hne (by decide)⟩),
      ih (by omega)]
    rfl

section Results
variable {setup : Setup} {hostNumb secondaryNumb : Int32} {x : Exchange}

theorem answer_request_eq_none (hshallow : setup.depth + 2 ≤ 2 ^ 24) {k : ℕ}
    (h : ¬setup.Understood k) : setup.service.answer (setup.service.request k) = none := by
  have hlarge := Setup.le_toSecondary_request h
  have hnone : fibonacci setup.depth (setup.toSecondary (setup.request k)) = none :=
    fibonacci_eq_none (by omega)
  exact Option.map_eq_none_iff.mpr hnone

theorem answers_eq {k : ℕ} (h : ∀ j < k, setup.Understood j) :
    setup.service.answers k = (setup.fibNumbers k).map some := by
  unfold Service.answers Setup.fibNumbers
  rw [List.map_map]
  refine List.map_congr_left fun j hj => ?_
  exact Setup.answer_request (h j (List.mem_range.mp hj))

theorem Phase.host_results (h : Phase setup x c) (hsound : setup.service.Sound c)
    (hunderstood : ∀ k < x.host.results.length, setup.Understood k) :
    x.host.results = setup.fibNumbers x.host.results.length := by
  rw [h.results_eq] at hunderstood ⊢
  have hall : ∀ k < c.results.length,
      setup.service.answer (setup.service.request k) ≠ none := by
    intro k hk
    rw [Setup.answer_request (hunderstood k hk)]
    exact Option.some_ne_none _
  have hresults := hsound.results_eq hall
  rw [answers_eq hunderstood] at hresults
  exact List.map_injective_iff.mpr (Option.some_injective Int32) hresults

theorem Exchange.complete
    (hreach : Reachable (Exchange.Step setup) (.start hostNumb secondaryNumb) x)
    (hfinal : Final (Exchange.Step setup) x) (hunderstood : ∀ k < 10, setup.Understood k) :
    x.secondary.i = 10 ∧ x.host.results = setup.fibNumbers 10 := by
  obtain ⟨c, hcalls, hphase⟩ :=
    (exchange_simulates setup).reachable (Phase.start setup hostNumb secondaryNumb) hreach
  have hsound := Service.sound hcalls
  have hexited := hphase.progress.resolve_right fun ⟨e, y, hstep⟩ => hfinal e y hstep
  have hanswers : ∀ k < 10, setup.service.answer (setup.service.request k) ≠ none := by
    intro k hk
    rw [Setup.answer_request (hunderstood k hk)]
    exact Option.some_ne_none _
  obtain ⟨hresults, hserved⟩ := hphase.done hexited.1 hanswers
  have hasked : c.asked ≤ 10 := hsound.asked_le
  have hlength : x.host.results.length = 10 := by
    rw [hphase.results_eq]
    exact le_antisymm (hsound.results_le.trans hasked) hresults
  have hreports := hphase.host_results hsound (by rwa [hlength])
  rw [hlength] at hreports
  refine ⟨?_, hreports⟩
  rw [hphase.secondary_i]
  exact le_antisymm (hsound.served_le.trans hasked) hserved

end Results

/-- What the host reports are the Fibonacci numbers it has asked for as long as the
secondary understands it. All ten rounds are served in every run exactly when it does
so in each of them: where the byte orders are the same, or only 0 is sent. -/
theorem exchange_serves_iff (setup : Setup) (hostNumb secondaryNumb : Int32)
    (hshallow : setup.depth + 2 ≤ 2 ^ 24) :
    (∀ x, Reachable (Exchange.Step setup) (.start hostNumb secondaryNumb) x →
      (∀ k < x.host.results.length, setup.Understood k) →
      x.host.results = setup.fibNumbers x.host.results.length) ∧
    ((∀ x, Reachable (Exchange.Step setup) (.start hostNumb secondaryNumb) x →
      Final (Exchange.Step setup) x →
      x.secondary.i = 10 ∧ x.host.results = setup.fibNumbers 10) ↔
    ∀ k < 10, setup.Understood k) := by
  have hphases := fun x hreach =>
    (exchange_simulates setup).reachable (t := x) (Phase.start setup hostNumb secondaryNumb) hreach
  refine ⟨fun x hreach hunderstood => ?_, ?_, fun hunderstood x hreach hfinal => ?_⟩
  · obtain ⟨c, hcalls, hphase⟩ := hphases x hreach
    exact hphase.host_results (Service.sound hcalls) hunderstood
  · intro hall k hk
    obtain ⟨x, hreach, hfinal⟩ : ∃ x, Reachable (Exchange.Step setup)
        (.start hostNumb secondaryNumb) x ∧ Final (Exchange.Step setup) x :=
      Exchange.exists_final _
    obtain ⟨c, hcalls, hphase⟩ := hphases x hreach
    by_contra hbad
    have hle := (Service.sound hcalls).served_le_of_none (answer_request_eq_none hshallow hbad)
    have hten := (hall x hreach hfinal).1
    rw [hphase.secondary_i] at hten
    omega
  · exact Exchange.complete hreach hfinal hunderstood

theorem exchange_serves_iff_same :
    let setup : Setup := ⟨.little, .little, fun k => Fin.ofNat 30 k, 1000, by decide⟩
    ∃ x, Reachable (Exchange.Step setup) (.start 0 0) x ∧
      x.host.results = [0, 1, 1, 2, 3, 5, 8, 13, 21, 34] := by
  intro setup
  obtain ⟨x, hreach, hfinal⟩ : ∃ x, Reachable (Exchange.Step setup) (.start 0 0) x ∧
      Final (Exchange.Step setup) x := Exchange.exists_final _
  have hserves := (exchange_serves_iff setup 0 0 (by decide)).2.mpr fun _ _ => .inl rfl
  exact ⟨x, hreach, (hserves x hreach hfinal).2⟩

end Netsvc.CppSocketApp
