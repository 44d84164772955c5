-- Calls out of scope: a call whose scope denies the cluster ends with the same error
-- whatever the registry knows of the cluster, and before it has used anything.
import PromFleet.Proxy

namespace prom_fleet.promproxy

open interleave map_range fleet registry

variable {ι : Type} [DecidableEq ι] {L : Lib} {p : Proxy} {principal : Option Principal}
  {call : Call} {i : ι}

/-- The scope denies the cluster with the labels that it has in the registry at a step. -/
def Denies (p : Proxy) (principal : Option Principal) (id : String) (e : Env) : Prop :=
  allows principal id (labelsOf (e.reg.cluster p.grace e.orders e.now id)) = false

/-- The error of a call that is denied. -/
def denial (clusterID : String) : Err :=
  if clusterID = "" then .api ⟨.invalidParam, "cluster id is required"⟩ else .forbidden clusterID

/-- The operations on a slot, on the bytes or on a session. -/
def Op.reaches : Op → Bool
  | .now | .cluster _ | .formOrder | .ctxErr => false
  | _ => true

theorem act_cluster {id : String} {e : Env} {s u : Hub ι} {c : Option Cluster}
    (h : (machine ι p).act i (.cluster id) e s = some (c, u)) :
    c = e.reg.cluster p.grace e.orders e.now id ∧ u = s := by
  have hpair := Option.some.inj h
  exact ⟨(congrArg Prod.fst hpair).symm, (congrArg Prod.snd hpair).symm⟩

/-- The operations of a denied call: a reading of the clock and one look into the
registry. -/
theorem denied_path {s t : Hub ι} {evs : List (Event Ans Env (Hub ι))} {q : Prog Ans Outcome}
    (h : Path (machine ι p) i (p.doCall L principal call) s evs q t)
    (hdenied : ∀ ev ∈ evs, Denies p principal call.clusterID ev.env) :
    (∀ ev ∈ evs, ev.op.reaches = false ∧ ev.after = ev.before) ∧
      (∀ out, q = .done out → out = fail (denial call.clusterID)) ∧
      (2 ≤ evs.length → ∃ out, q = .done out) := by
  rcases Path.first h with ⟨rfl, rfl⟩ | ⟨e, a, s₁, u, evs', -, hnow, rfl, hrest⟩
  · simp
  cases hnow
  change Path _ i (p.authorizeAndBuild L principal call >>=
    p.proceed L principal call e.now) _ _ _ _ at hrest
  unfold Proxy.authorizeAndBuild at hrest
  split at hrest
  · -- the check of the cluster ID comes before the look into the registry
    rename_i hid
    obtain ⟨rfl, rfl, -⟩ := hrest.of_done
    simp [denial, hid, Op.reaches]
  · rename_i hid
    rcases Path.first hrest with ⟨rfl, rfl⟩ | ⟨e', a, s₂, u, evs', -, hcluster, rfl, hnext⟩
    · simp [Op.reaches]
    obtain ⟨ha, hu⟩ := act_cluster hcluster
    have hno : Denies p principal call.clusterID e' :=
      hdenied ⟨.cluster call.clusterID, e', a, s₂, u⟩ (by simp)
    have hforbidden : p.judge L principal call a = .done (.error (.forbidden call.clusterID)) := by
      unfold Proxy.judge
      rw [ha, hno]
      rfl
    change Path _ i (p.judge L principal call a >>= p.proceed L principal call e.now) _ _ _ _
      at hnext
    rw [hforbidden] at hnext
    obtain ⟨rfl, rfl, -⟩ := hnext.of_done
    simp [denial, hid, Op.reaches, hu]

/-- Two runs with the same call, in which the registry may know different things about the
cluster, both out of scope: the call ends with the same error, after two operations at
most, and none of them is on a budget or a session. -/
theorem out_of_scope_clusters_are_indistinguishable (L : Lib) (p : Proxy)
    (principal : Option Principal) (call : Call) (i : ι)
    (c₁ c₂ c₁' c₂' : Conf Ans ι (Hub ι) Outcome) (ls₁ ls₂ : List (ι × Env))
    (hcall₁ : c₁.thread i = p.doCall L principal call)
    (hcall₂ : c₂.thread i = p.doCall L principal call)
    (hrun₁ : run (machine ι p) c₁ ls₁ = some c₁') (hrun₂ : run (machine ι p) c₂ ls₂ = some c₂')
    (hdenied₁ : ∀ e, (i, e) ∈ ls₁ → Denies p principal call.clusterID e)
    (hdenied₂ : ∀ e, (i, e) ∈ ls₂ → Denies p principal call.clusterID e) :
    (∀ out₁ out₂, c₁'.thread i = .done out₁ → c₂'.thread i = .done out₂ →
      out₁ = out₂ ∧ out₁.result = none ∧ out₁.err.isSome) ∧
    (∀ ev ∈ history (machine ι p) i c₁ ls₁ ++ history (machine ι p) i c₂ ls₂,
      ev.op.reaches = false ∧ ev.after = ev.before) ∧
    (2 ≤ (history (machine ι p) i c₁ ls₁).length → ∃ out, c₁'.thread i = .done out) ∧
    (2 ≤ (history (machine ι p) i c₂ ls₂).length → ∃ out, c₂'.thread i = .done out) := by
  have hpath₁ := path_of_run (i := i) hrun₁
  have hpath₂ := path_of_run (i := i) hrun₂
  rw [hcall₁] at hpath₁
  rw [hcall₂] at hpath₂
  obtain ⟨hops₁, hout₁, hend₁⟩ := denied_path hpath₁ fun ev hev => hdenied₁ ev.env (history_env hev)
  obtain ⟨hops₂, hout₂, hend₂⟩ := denied_path hpath₂ fun ev hev => hdenied₂ ev.env (history_env hev)
  refine ⟨fun out₁ out₂ hq₁ hq₂ => ?_, fun ev hev => ?_, hend₁, hend₂⟩
  · rw [hout₁ out₁ hq₁, hout₂ out₂ hq₂]
    exact ⟨rfl, rfl, rfl⟩
  · rcases List.mem_append.mp hev with hev | hev
    · exact hops₁ ev hev
    · exact hops₂ ev hev

/-- A call to the connected cluster "east" with an endpoint that does not exist. -/
def strayAsk : Ask := ⟨some (callerOf ["west"]), callTo "east" (.other "shutdown") ∅⟩

theorem a_call_out_of_scope_sees_no_cluster :
    ∃ c₁ c₂, run (machine Unit smallProxy) (start smallLib smallProxy fun _ => strayAsk)
        [((), calm emptyReg), ((), calm emptyReg)] = some c₁ ∧
      run (machine Unit smallProxy) (start smallLib smallProxy fun _ => strayAsk)
        [((), calm eastReg), ((), calm eastReg)] = some c₂ ∧
      c₁.thread () = c₂.thread () ∧ c₁.thread () = .done (fail (.forbidden "east")) := by
  have hdenies (reg : Reg) (h : Denies smallProxy strayAsk.principal "east" (calm reg)) :
      ∀ e, ((), e) ∈ [((), calm reg), ((), calm reg)] →
        Denies smallProxy strayAsk.principal "east" e := by
    intro e he
    obtain rfl : e = calm reg := by simpa using he
    exact h
  obtain ⟨hsame, -⟩ := out_of_scope_clusters_are_indistinguishable smallLib smallProxy
    strayAsk.principal strayAsk.call () (start smallLib smallProxy fun _ => strayAsk)
    (start smallLib smallProxy fun _ => strayAsk) _ _ _ _ rfl rfl rfl rfl
    (hdenies emptyReg (by unfold Denies; decide +kernel))
    (hdenies eastReg (by unfold Denies; decide +kernel))
  exact ⟨_, _, rfl, rfl, congrArg Prog.done (hsame _ _ rfl rfl).1, rfl⟩

end prom_fleet.promproxy
