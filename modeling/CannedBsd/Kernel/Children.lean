import CannedBsd.Kernel.Reachable

/-!
# Children and their exit status

Every task on the list has a pid of its own, and no pid is given twice in a run. A parent learns the
exit status of each of its children at most once, after the child has exited, and `waitpid` gives up
exactly when the parent has no child left that it could wait for.

* `apiWaitpid_status`: a successful `waitpid` returns the status of a child that has exited and that nobody
  has waited for.
* `apiWaitpid_echild`: `waitpid` fails with `ECHILD` exactly when all children it asks for are reaped.
* `wait_exactly_once`: pids are unique, and every exit status is collected at most once, in every run whose
  pids fit an `int`.
-/

namespace CannedBsd

open CannedBsd.Lib

variable {gone : NodeId → Prop} {k k' : Kernel} {fl fl' : Flight} {l : NodeId → ℕ} {t : TaskId}

/-! ### Histories grow -/

theorem history_retire (k : Kernel) (t : TaskId) (task : Task) (status : ℤ) :
    (retire k t task status).history = k.history ++ [.exited t status] := by
  obtain ⟨finished, bootStatus, heq⟩ := retire_eq k t task status
  rw [heq]

theorem Sched.history_prefix (h : Sched k fl k' fl') : k.history <+: k'.history := by
  cases h with
  | calm hc =>
    rw [hc.history]
  | @leave _ t task status hcur ht hdirs =>
    show k.history <+: (wakeWaitingParent (retire k t task status) task).history
    rw [(history_wakeWaitingParent _ _).1, history_retire]
    exact List.prefix_append _ _
  | list => exact List.prefix_append _ _
  | unlist => exact List.prefix_append _ _
  | _ => exact List.prefix_rfl

theorem Micro.history_prefix (h : Micro gone k fl k' fl') : k.history <+: k'.history := by
  cases h with
  | sched hs => exact hs.history_prefix
  | closeReader =>
    rw [pipeReadClose, (history_pipeClose _ _ _).1]
    exact List.prefix_rfl
  | closeWriter =>
    rw [pipeWriteClose, (history_pipeClose _ _ _).1]
    exact List.prefix_rfl
  | _ => exact List.prefix_rfl

theorem Moves.history_prefix (h : Moves gone k fl k' fl') : k.history <+: k'.history := by
  induction h with
  | refl => exact List.prefix_rfl
  | step _ hm ih => exact ih.trans hm.history_prefix

/-- Nothing that happened is forgotten. -/
theorem Poised.history_prefix (h : Poised k l) (hr : Reach CannedBsd.step anyStep k k') :
    k.history <+: k'.history ∧ ∃ l', Poised k' l' := by
  induction hr with
  | init => exact ⟨List.prefix_rfl, l, h⟩
  | step _ _ hs ih =>
    obtain ⟨hpre, l', hp⟩ := ih
    obtain ⟨l'', hm, hp', -⟩ := hp.step hs
    exact ⟨hpre.trans hm.history_prefix, l'', hp'⟩

/-! ### Rounds of `waitpid` -/

/-- The state in which a step runs a round of `api_waitpid`, with the caller and its argument: the
call itself, or a suspended call that goes on. -/
def waitRound (k : Kernel) : Action → Option (Kernel × TaskId × ℤ)
  | .call _ (.waitpid pid) => k.current.map fun t => (k, t, pid)
  | .schedule h =>
    (pickRunnable (roused h k)).bind fun t =>
      match (roused h k).task t with
      | none => none
      | some task =>
        if task.interrupted then none
        else
          match task.frame with
          | .waitpid pid => some (dispatch (roused h k) t, t, pid)
          | _ => none
  | _ => none

/-- What the round of `api_waitpid` in a step returns. -/
def waitReply (k : Kernel) (a : Action) : Option Outcome :=
  (waitRound k a).map fun (k₁, t, pid) => (apiWaitpid k₁ t pid).2

theorem history_reap (k : Kernel) (c : TaskId) : (reap k c).history = k.history := by
  rw [reap, taskDestroy, aloof_history.taskRelease fun _ => rfl, aloof_history.dirCloseAll fun _ _ _ => rfl, fdCloseAll,
    aloof_history.fdCloseWhere fun _ _ _ => rfl]
  rfl

theorem history_deliver (t : TaskId) (r : Kernel × Outcome) : (deliver t r).history = r.1.history := by
  obtain ⟨k, o⟩ := r
  cases o with
  | done reply out =>
    rw [deliver]
    cases reply.error <;> rfl
  | block => rfl
  | gone => rfl

theorem history_roused (h : Host) (k : Kernel) : (roused h k).history = k.history := by
  rw [roused]
  split <;> rfl

/-- In a round of `waitpid` the invariants hold and the caller runs; the step ends with its outcome. -/
theorem waitRound_spec {a : Action} {k₁ : Kernel} {pid : ℤ} (h : Poised k l) (hs : step k a = some k')
    (hw : waitRound k a = some (k₁, t, pid)) :
    k' = deliver t (apiWaitpid k₁ t pid) ∧ k₁.history = k.history ∧ k₁.current = some t ∧
      ∃ fl, Base k₁ fl := by
  unfold step at hs
  split at hs
  · cases hs
  cases a with
  | call host op =>
    cases op with
    | waitpid p =>
      obtain ⟨c, hc, heq⟩ := Option.map_eq_some_iff.mp hw
      cases heq
      simp only [hc, Option.some.injEq] at hs
      exact ⟨hs.symm, rfl, hc, _, h.base⟩
    | _ => cases hw
  | schedule host =>
    dsimp only at hs
    split at hs
    · rename_i hready
      rw [Option.some.injEq] at hs
      obtain ⟨c, hpick, hround⟩ := Option.bind_eq_some_iff.mp hw
      obtain ⟨hmem, task, ht, hst⟩ := pickRunnable_eq_some hpick
      rw [ht] at hround
      dsimp only at hround
      split at hround
      · cases hround
      rename_i hint
      split at hround
      · rename_i p hframe
        cases hround
        have hwake : Path noNode k (.rest l) (roused host k) (.rest l) := roused_path host k
        have hgo : Moves noNode (roused host k) (.rest l) (dispatch (roused host k) t) (.resumed l task.frame) :=
          .single (.sched (.dispatch (hwake.steady.current.trans hready.1)
            (hwake.steady.finishing.trans hready.2.1) hmem ht hst rfl))
        refine ⟨?_, history_roused host k, rfl, _, (hwake.base h.base).moves hgo⟩
        have ht' : (dispatch (roused host k) t).task t = some { task with state := .running } :=
          Kernel.task_setTask_self _ ht
        rw [← hs, scheduleRound_eq, hpick]
        dsimp only
        rw [resume, ht']
        dsimp only
        rw [if_neg, hframe]
        rintro ⟨hpend, hign⟩
        exact hint (by rw [Task.interrupted, hpend, hign]; rfl)
      · cases hround
    · cases hs
  | _ => cases hw

/-- The children `waitpid` looks at are those the history knows and that are not reaped. -/
theorem mem_childrenOf_iff {parent : Task} {pid : ℤ} {c : TaskId} (hb : Base k fl) (hc : k.current = some t)
    (ht : k.task t = some parent) :
    c ∈ childrenOf k parent pid ↔
      ∃ n : ℕ, .spawned (some t) c n ∈ k.history ∧ ¬ Buried k.history c ∧ (pid = -1 ∨ (n : ℤ) = pid) := by
  obtain ⟨htmem, -⟩ := hb.roster.current hc
  rw [mem_childrenOf]
  constructor
  · rintro ⟨hmem, child, hchild, his⟩
    rw [isChild, Bool.and_eq_true, Bool.or_eq_true, decide_eq_true_eq, decide_eq_true_eq, decide_eq_true_eq] at his
    exact ⟨child.pid, (hb.lineage.child_iff htmem ht hmem hchild).mp his.1, fun hbur => hb.lineage.buried hbur hmem,
      his.2⟩
  · rintro ⟨n, hs, hbur, hpid⟩
    have hmem := (hb.lineage.listed ⟨_, _, hs⟩).resolve_right hbur
    obtain ⟨child, hchild⟩ := hb.roster.live hmem
    obtain ⟨q, hs', -⟩ := hb.lineage.bears hmem hchild
    have hn : child.pid = n := (hb.lineage.chronicle.spawned_unique hs' hs).1.mp rfl
    refine ⟨hmem, child, hchild, ?_⟩
    rw [isChild, Bool.and_eq_true, Bool.or_eq_true, decide_eq_true_eq, decide_eq_true_eq, decide_eq_true_eq]
    refine ⟨(hb.lineage.child_iff htmem ht hmem hchild).mpr ?_, ?_⟩
    · rw [hn]
      exact hs
    · rw [hn]
      exact hpid

/-- **Status.**  What a successful `waitpid` returns is the status of a child of the caller that has
exited and that nobody has waited for yet. -/
theorem apiWaitpid_status {pid v status : ℤ} (hb : Base k fl) (hc : k.current = some t)
    (hout : (apiWaitpid k t pid).2 = .done (.done v) (.status status)) :
    ∃ (c : TaskId) (n : ℕ) (argument : ℤ), v = n ∧ (pid = -1 ∨ v = pid) ∧ .spawned (some t) c n ∈ k.history ∧
      .exited c argument ∈ k.history ∧ status = argument % 256 ∧ ¬ Buried k.history c ∧
      (apiWaitpid k t pid).1.history = k.history ++ [.reaped t c n status] := by
  obtain ⟨htmem, parent, ht, -⟩ := hb.roster.current hc
  rw [apiWaitpid, ht] at hout ⊢
  dsimp only at hout ⊢
  split at hout
  · rename_i c hfind
    obtain ⟨hmem, child, hchild, his⟩ := mem_childrenOf.mp (List.mem_of_find?_eq_some hfind)
    have hzombie : child.state = .zombie := by
      have hany := List.find?_some hfind
      rw [hchild] at hany
      simpa using hany
    rw [hchild] at hout
    cases hout
    rw [isChild, Bool.and_eq_true, Bool.or_eq_true, decide_eq_true_eq, decide_eq_true_eq, decide_eq_true_eq] at his
    obtain ⟨argument, hexit, hstatus⟩ := hb.lineage.zombie hmem hchild hzombie
    refine ⟨c, child.pid, argument, rfl, his.2, (hb.lineage.child_iff htmem ht hmem hchild).mp his.1, hexit, hstatus,
      fun hbur => hb.lineage.buried hbur hmem, ?_⟩
    rw [hchild]
    dsimp only
    rw [history_reap]
    rfl
  · split at hout <;> cases hout

/-- **No child.**  `waitpid` fails with `ECHILD` exactly when all children it asks for are reaped. -/
theorem apiWaitpid_echild {pid : ℤ} (hb : Base k fl) (hc : k.current = some t) :
    (apiWaitpid k t pid).2 = .fail .echild ↔
      ∀ (c : TaskId) (n : ℕ), .spawned (some t) c n ∈ k.history → pid = -1 ∨ (n : ℤ) = pid → Buried k.history c := by
  obtain ⟨-, parent, ht, -⟩ := hb.roster.current hc
  have hnone : childrenOf k parent pid = [] ↔
      ∀ (c : TaskId) (n : ℕ), .spawned (some t) c n ∈ k.history → pid = -1 ∨ (n : ℤ) = pid → Buried k.history c := by
    constructor
    · intro hnil c n hs hpid
      by_contra hbur
      have hmem := (mem_childrenOf_iff hb hc ht).mpr ⟨n, hs, hbur, hpid⟩
      rw [hnil] at hmem
      cases hmem
    · intro hall
      refine List.eq_nil_iff_forall_not_mem.mpr fun c hmem => ?_
      obtain ⟨n, hs, hbur, hpid⟩ := (mem_childrenOf_iff hb hc ht).mp hmem
      exact hbur (hall c n hs hpid)
  rw [← hnone, apiWaitpid, ht]
  dsimp only
  constructor
  · intro hout
    split at hout
    · split at hout <;> cases hout
    · split at hout
      · rename_i hnil
        exact hnil
      · cases hout
  · intro hnil
    rw [hnil, List.find?_nil]
    dsimp only
    rw [if_pos rfl]

/-! ### Whole runs -/

/-- The tasks on the list have positive pids of type `int`, no two of them the same. -/
def DistinctPids (k : Kernel) : Prop :=
  ∀ t ∈ k.order, ∀ task, k.task t = some task → 0 < task.pid ∧ task.pid ≤ intMax ∧
    ∀ c ∈ k.order, ∀ other, k.task c = some other → other.pid = task.pid → c = t

/-- No two tasks that ever came onto the list had the same pid. -/
def PidsOnce (history : List Passage) : Prop :=
  ∀ p q t c pid, .spawned p t pid ∈ history → .spawned q c pid ∈ history → t = c ∧ p = q

/-- The task `t` gets the status of a child it spawned itself, after the child exited with that status
modulo 256. Nobody got it before, and in no continuation of the run does anybody get it again. -/
def ReapsOnce (k k' : Kernel) (t : TaskId) (v status : ℤ) : Prop :=
  ∃ (c : TaskId) (n : ℕ) (argument : ℤ), v = n ∧ .spawned (some t) c n ∈ k.history ∧
    .exited c argument ∈ k.history ∧ status = argument % 256 ∧ ¬ Buried k.history c ∧ Buried k'.history c ∧
    ∀ k₂ a₂ k₃ status', Reach step anyStep k' k₂ → step k₂ a₂ = some k₃ →
      waitReply k₂ a₂ ≠ some (.done (.done v) (.status status'))

theorem Buried.mono {history history' : List Passage} (h : Buried history t) (hp : history <+: history') :
    Buried history' t := by
  obtain ⟨p, pid, status, hmem⟩ := h
  exact ⟨p, pid, status, hp.subset hmem⟩

theorem distinctPids_of_base (hb : Base k fl) (hpids : k.nextPid ≤ intMax) : DistinctPids k := by
  intro t hmem task ht
  obtain ⟨p, hs, -⟩ := hb.lineage.bears hmem ht
  have hpos := hb.lineage.chronicle.spawned_pos hs
  have hle := hb.roster.pidLe ht
  refine ⟨hpos, hle.trans hpids, fun c hc other hother heq => ?_⟩
  exact hb.roster.pids hother ht heq

theorem reapsOnce_of_status {a : Action} {k₁ : Kernel} {pid v status : ℤ} (h : Poised k l)
    (hs : step k a = some k') (hw : waitRound k a = some (k₁, t, pid))
    (hout : (apiWaitpid k₁ t pid).2 = .done (.done v) (.status status)) : ReapsOnce k k' t v status := by
  obtain ⟨heq, hhist, hcur, fl, hb⟩ := waitRound_spec h hs hw
  obtain ⟨c, n, argument, hv, -, hspawned, hexited, hstatus, hfresh, hgrow⟩ := apiWaitpid_status hb hcur hout
  rw [hhist] at hspawned hexited hfresh hgrow
  obtain ⟨l', -, hp', -⟩ := h.step hs
  have hburied : Buried k'.history c := by
    rw [heq, history_deliver, hgrow]
    exact ⟨t, n, status, List.mem_append_right _ (List.mem_singleton.mpr rfl)⟩
  have hborn : .spawned (some t) c n ∈ k'.history := by
    rw [heq, history_deliver, hgrow]
    exact List.mem_append_left _ hspawned
  refine ⟨c, n, argument, hv, hspawned, hexited, hstatus, hfresh, hburied, ?_⟩
  -- a later wait that returned the same pid would be about the same child, which is reaped by then
  intro k₂ a₂ k₃ status' hreach hs₂ hreply
  obtain ⟨hpre, l₂, hp₂⟩ := hp'.history_prefix hreach
  obtain ⟨⟨k₄, t₄, pid₄⟩, hw₂, hout₂⟩ := Option.map_eq_some_iff.mp hreply
  obtain ⟨-, hhist₂, hcur₂, fl₂, hb₂⟩ := waitRound_spec hp₂ hs₂ hw₂
  obtain ⟨c₂, n₂, -, hv₂, -, hspawned₂, -, -, hfresh₂, -⟩ := apiWaitpid_status hb₂ hcur₂ hout₂
  rw [hhist₂] at hspawned₂ hfresh₂
  have hn : n₂ = n := by
    rw [hv] at hv₂
    exact_mod_cast hv₂.symm
  rw [hn] at hspawned₂
  have hsame : c₂ = c :=
    (hp₂.base.lineage.chronicle.spawned_unique hspawned₂ (hpre.subset hborn)).1.mpr rfl
  rw [hsame] at hfresh₂
  exact hfresh₂ (hburied.mono hpre)

/-- **Identity and waiting.**  In every state of a run in which the pids fit an `int`, the pids of the
list are distinct and positive, no pid was given twice, and the cursor of the scheduler is on no task
that was reaped. Whenever a round of `waitpid` runs, it returns a status once and for all, and fails
with `ECHILD` exactly when every child it asks for is reaped. -/
theorem wait_exactly_once (hr : Reachable k) (hpids : k.nextPid ≤ intMax) :
    DistinctPids k ∧ PidsOnce k.history ∧ (∀ c, Buried k.history c → k.scheduleCursor ≠ some c) ∧
      ∀ a k' k₁ t pid, step k a = some k' → waitRound k a = some (k₁, t, pid) →
        k' = deliver t (apiWaitpid k₁ t pid) ∧
        (∀ v status, (apiWaitpid k₁ t pid).2 = .done (.done v) (.status status) → ReapsOnce k k' t v status) ∧
        ((apiWaitpid k₁ t pid).2 = .fail .echild ↔ ∀ (c : TaskId) (n : ℕ), .spawned (some t) c n ∈ k.history →
          pid = -1 ∨ (n : ℤ) = pid → Buried k.history c) := by
  obtain ⟨l, hp⟩ := hr.poised
  have hb := hp.base
  refine ⟨distinctPids_of_base hb hpids, ?_, ?_, ?_⟩
  · intro p q t c pid ht hc
    obtain ⟨hiff, hparent⟩ := hb.lineage.chronicle.spawned_unique ht hc
    exact ⟨hiff.mpr rfl, hparent (hiff.mpr rfl)⟩
  · intro c hbur hcur
    exact hb.lineage.buried hbur (hb.lineage.cursor hcur)
  · intro a k' k₁ t pid hs hw
    obtain ⟨heq, hhist, hcur, fl, hb₁⟩ := waitRound_spec hp hs hw
    refine ⟨heq, fun v status hout => reapsOnce_of_status hp hs hw hout, ?_⟩
    rw [← hhist]
    exact apiWaitpid_echild hb₁ hcur

/-- The shell spawns a shell and waits for it; the child exits with 300. -/
def waitRun : Kernel :=
  stateAfter (shellStart ++ calls [.spawn shName [shName] none [], .waitpid (-1)] ++ [.schedule .calm] ++
    calls [.exit 300])

theorem wait_exactly_once_shell :
    waitRun.nextPid ≤ intMax ∧ DistinctPids waitRun ∧
      waitReply waitRun (.schedule .calm) = some (.done (.done 2) (.status 44)) ∧
      ∃ k', step waitRun (.schedule .calm) = some k' ∧ ReapsOnce waitRun k' 0 2 44 := by
  have hpids : waitRun.nextPid ≤ intMax := by decide +kernel
  obtain ⟨hdistinct, -, -, hwaits⟩ := wait_exactly_once (reachable_stateAfter _) hpids
  have hreply : waitReply waitRun (.schedule .calm) = some (.done (.done 2) (.status 44)) := by decide +kernel
  have hcaller : (waitRound waitRun (.schedule .calm)).map (fun r => r.2.1) = some 0 := by decide +kernel
  have hpossible : (step waitRun (.schedule .calm)).isSome = true := by decide +kernel
  obtain ⟨k', hs⟩ := Option.isSome_iff_exists.mp hpossible
  obtain ⟨⟨k₁, t, pid⟩, hw, hout⟩ := Option.map_eq_some_iff.mp hreply
  rw [hw, Option.map_some, Option.some.injEq] at hcaller
  subst hcaller
  exact ⟨hpids, hdistinct, hreply, k', hs, (hwaits _ _ _ _ _ hs hw).2.1 2 44 hout⟩

end CannedBsd
