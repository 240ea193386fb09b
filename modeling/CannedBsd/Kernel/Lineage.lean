import CannedBsd.Kernel.Waiting

/-!
# Births, deaths and burials

`history` lists when tasks came onto the list, exited and were reaped. A history is possible when no
task and no pid comes twice, a task exits once, and it is reaped once, by its parent, with the status
it exited with. The invariant of this module ties the tasks of the kernel to its history.

* `Chronicle.spawned_unique`: a task comes onto the list once, and no other task gets its pid.
* `Lineage.child_iff`: the pid of the parent and the history agree on who is whose child.
* `Lineage.micro`: every elementary step keeps the invariant.
-/

namespace CannedBsd

open CannedBsd.Lib

/-! ### Possible histories -/

/-- The task came onto the list. -/
def Born (history : List Passage) (t : TaskId) : Prop := ∃ parent pid, .spawned parent t pid ∈ history

/-- The task was reaped. -/
def Buried (history : List Passage) (t : TaskId) : Prop := ∃ parent pid status, .reaped parent t pid status ∈ history

/-- Can this come next? -/
def Possible (history : List Passage) : Passage → Prop
  | .spawned parent t pid => 0 < pid ∧ (∀ p, parent = some p → Born history p) ∧
      ∀ p c q, .spawned p c q ∈ history → c ≠ t ∧ q ≠ pid
  | .exited t _ => Born history t ∧ ∀ status, .exited t status ∉ history
  | .reaped parent t pid status => .spawned (some parent) t pid ∈ history ∧
      (∃ argument, .exited t argument ∈ history ∧ status = argument % 256) ∧ ¬ Buried history t

inductive Chronicle : List Passage → Prop
  | nil : Chronicle []
  | snoc {history : List Passage} {e : Passage} : Chronicle history → Possible history e →
      Chronicle (history ++ [e])

section

variable {history pre post : List Passage} {t c : TaskId} {p q : Option TaskId} {a b : ℕ}

namespace Chronicle

/-- Everything in a history was possible when it came. -/
theorem possible (h : Chronicle history) {e : Passage} (heq : history = pre ++ e :: post) : Possible pre e := by
  induction h generalizing post with
  | nil => cases pre <;> cases heq
  | @snoc history' e' _ hp ih =>
    rcases List.eq_nil_or_concat post with rfl | ⟨post', x, rfl⟩
    · obtain ⟨rfl, hlast⟩ := List.append_inj' heq rfl
      cases hlast
      exact hp
    · have hcut : history' ++ [e'] = (pre ++ e :: post') ++ [x] := by
        rw [heq, List.append_assoc, List.cons_append, List.concat_eq_append]
      exact ih (List.append_inj' hcut rfl).1

/-- A task comes onto the list at most once, and no other task gets its pid. -/
theorem spawned_unique (h : Chronicle history) (hc : .spawned p t a ∈ history) (hc' : .spawned q c b ∈ history) :
    (t = c ↔ a = b) ∧ (t = c → p = q) := by
  induction h with
  | nil => cases hc
  | @snoc history' e _ hp ih =>
    rcases List.mem_append.mp hc with hold | hnew
    · rcases List.mem_append.mp hc' with hold' | hnew'
      · exact ih hold hold'
      · rw [List.mem_singleton] at hnew'
        subst hnew'
        obtain ⟨hne, hne'⟩ := hp.2.2 p t a hold
        exact ⟨⟨fun heq => absurd heq hne, fun heq => absurd heq hne'⟩, fun heq => absurd heq hne⟩
    · rw [List.mem_singleton] at hnew
      subst hnew
      rcases List.mem_append.mp hc' with hold' | hnew'
      · obtain ⟨hne, hne'⟩ := hp.2.2 q c b hold'
        exact ⟨⟨fun heq => absurd heq.symm hne, fun heq => absurd heq.symm hne'⟩, fun heq => absurd heq.symm hne⟩
      · rw [List.mem_singleton] at hnew'
        cases hnew'
        exact ⟨⟨fun _ => rfl, fun _ => rfl⟩, fun _ => rfl⟩

theorem spawned_pos (h : Chronicle history) (hc : .spawned p t a ∈ history) : 0 < a := by
  obtain ⟨pre, post, heq⟩ := List.append_of_mem hc
  exact (h.possible heq).1

theorem born_of_exited (h : Chronicle history) {status : ℤ} (hx : .exited t status ∈ history) : Born history t := by
  obtain ⟨pre, post, heq⟩ := List.append_of_mem hx
  obtain ⟨⟨p, pid, hs⟩, -⟩ := h.possible heq
  exact ⟨p, pid, heq ▸ List.mem_append_left _ hs⟩

theorem born_of_buried (h : Chronicle history) (hb : Buried history t) : Born history t := by
  obtain ⟨p, pid, status, hr⟩ := hb
  obtain ⟨pre, post, heq⟩ := List.append_of_mem hr
  exact ⟨some p, pid, heq ▸ List.mem_append_left _ (h.possible heq).1⟩

end Chronicle

end

/-! ### The kernel and its history -/

/-- The parent's pid, as the history has it. -/
def Kin (history : List Passage) : Option TaskId → ℕ → Prop
  | none, ppid => ppid = 0
  | some p, ppid => ∃ parent, .spawned parent p ppid ∈ history

theorem Kin.mono {history : List Passage} {p : Option TaskId} {ppid : ℕ} (h : Kin history p ppid) (e : Passage) :
    Kin (history ++ [e]) p ppid := by
  cases p with
  | none => exact h
  | some p =>
    obtain ⟨parent, hs⟩ := h
    exact ⟨parent, List.mem_append_left _ hs⟩

structure Lineage (k : Kernel) (fl : Flight) : Prop where
  chronicle : Chronicle k.history
  known : ∀ {p t pid}, .spawned p t pid ∈ k.history → t < k.tasks.next ∧ pid ≤ k.nextPid
  bears : ∀ {t task}, t ∈ k.order → k.task t = some task →
    ∃ parent, .spawned parent t task.pid ∈ k.history ∧ Kin k.history parent task.ppid
  zombie : ∀ {t task}, t ∈ k.order → k.task t = some task → task.state = .zombie →
    ∃ status, .exited t status ∈ k.history ∧ task.exitStatus = status % 256
  left : ∀ {t task status}, .exited t status ∈ k.history → t ∈ k.order → k.task t = some task →
    task.state = .zombie
  listed : ∀ {t}, Born k.history t → t ∈ k.order ∨ Buried k.history t
  buried : ∀ {t}, Buried k.history t → t ∉ k.order
  unlisted : ∀ {t}, fl.limbo = some t → t ∉ k.order
  limbo : ∀ {t task}, fl.limbo = some t → k.task t = some task → task.state ≠ .dead →
    0 < task.pid ∧ ∀ {p c pid}, .spawned p c pid ∈ k.history → c ≠ t ∧ pid ≠ task.pid
  cursor : ∀ {t}, k.scheduleCursor = some t → t ∈ k.order

/-- Nothing the history speaks of changes. -/
structure Akin (task task' : Task) : Prop where
  pid : task'.pid = task.pid
  ppid : task'.ppid = task.ppid
  exitStatus : task'.exitStatus = task.exitStatus
  zombie : task'.state = .zombie ↔ task.state = .zombie
  dead : task.state = .dead → task'.state = .dead

variable {gone : NodeId → Prop} {k k' : Kernel} {fl fl' : Flight} {t : TaskId}

theorem Rests.akin {task task' : Task} (h : Rests task task') : Akin task task' := by
  refine ⟨h.pid, h.ppid, h.exitStatus, ?_, fun hd => ?_⟩
  · rcases h.state with heq | ⟨hb, heq⟩
    · rw [heq]
    · refine ⟨fun hz => ?_, fun hz => ?_⟩
      · rw [heq] at hz
        cases hz
      · rw [hz] at hb
        cases hb
  · rcases h.state with heq | ⟨hb, -⟩
    · rw [heq, hd]
    · rw [hd] at hb
      cases hb

theorem history_wakeWaitingParent (k : Kernel) (child : Task) :
    (wakeWaitingParent k child).history = k.history ∧
      (wakeWaitingParent k child).scheduleCursor = k.scheduleCursor := by
  rw [wakeWaitingParent]
  split <;> exact ⟨rfl, rfl⟩

theorem history_pipeClose (k : Kernel) (p : PipeId) (lower : Pipe → Pipe) :
    (pipeClose k p lower).history = k.history ∧ (pipeClose k p lower).scheduleCursor = k.scheduleCursor := by
  rw [pipeClose]
  split
  · exact ⟨rfl, rfl⟩
  · dsimp only
    split <;> exact ⟨rfl, rfl⟩

namespace Lineage

theorem born (h : Lineage k fl) {task : Task} (hmem : t ∈ k.order) (ht : k.task t = some task) : Born k.history t := by
  obtain ⟨parent, hs, -⟩ := h.bears hmem ht
  exact ⟨parent, _, hs⟩

/-- The list and the history stay, and the tasks stay akin. -/
theorem keep (h : Lineage k fl) (hh : k'.history = k.history) (ho : k'.order = k.order)
    (hn : k.tasks.next ≤ k'.tasks.next) (hp : k.nextPid ≤ k'.nextPid) (hl : fl'.limbo = fl.limbo)
    (hc : ∀ {t}, k'.scheduleCursor = some t → t ∈ k.order)
    (hk : ∀ {t task'}, k'.task t = some task' → ∃ task, k.task t = some task ∧ Akin task task') :
    Lineage k' fl' := by
  refine ⟨?_, ?_, ?_, ?_, ?_, ?_, ?_, ?_, ?_, ?_⟩
  · rw [hh]
    exact h.chronicle
  · intro p t pid hs
    rw [hh] at hs
    obtain ⟨hlt, hle⟩ := h.known hs
    exact ⟨hlt.trans_le hn, hle.trans hp⟩
  · intro t task' hmem ht'
    obtain ⟨task, ht, ha⟩ := hk ht'
    rw [ho] at hmem
    rw [hh, ha.pid, ha.ppid]
    exact h.bears hmem ht
  · intro t task' hmem ht' hz
    obtain ⟨task, ht, ha⟩ := hk ht'
    rw [ho] at hmem
    rw [hh, ha.exitStatus]
    exact h.zombie hmem ht (ha.zombie.mp hz)
  · intro t task' status hx hmem ht'
    obtain ⟨task, ht, ha⟩ := hk ht'
    rw [ho] at hmem
    rw [hh] at hx
    exact ha.zombie.mpr (h.left hx hmem ht)
  · intro t hb
    rw [hh] at hb ⊢
    rw [ho]
    exact h.listed hb
  · intro t hb
    rw [hh] at hb
    rw [ho]
    exact h.buried hb
  · intro t hlim
    rw [hl] at hlim
    rw [ho]
    exact h.unlisted hlim
  · intro t task' hlim ht' hd
    obtain ⟨task, ht, ha⟩ := hk ht'
    rw [hl] at hlim
    rw [hh, ha.pid]
    exact h.limbo hlim ht fun hdead => hd (ha.dead hdead)
  · intro t ht
    rw [ho]
    exact hc ht

theorem resting (h : Lineage k fl) (hr : Resting k k') (hh : k'.history = k.history)
    (hc : k'.scheduleCursor = k.scheduleCursor) (hl : fl'.limbo = fl.limbo) : Lineage k' fl' := by
  refine h.keep hh hr.order (le_of_eq hr.next.symm) hr.nextPid hl (fun ht => h.cursor (hc ▸ ht)) fun ht' => ?_
  obtain ⟨task, ht, hrest⟩ := hr.tasks ht'
  exact ⟨task, ht, hrest.akin⟩

/-- One task changes. -/
theorem setTask {f : Task → Task} {task : Task} (h : Lineage k fl) (ht : k.task t = some task)
    (ha : Akin task (f task)) (hk : k'.tasks = (k.setTask t f).tasks) (hh : k'.history = k.history)
    (ho : k'.order = k.order) (hp : k.nextPid ≤ k'.nextPid) (hl : fl'.limbo = fl.limbo)
    (hc : ∀ {t}, k'.scheduleCursor = some t → t ∈ k.order) : Lineage k' fl' := by
  refine h.keep hh ho ?_ hp hl hc fun {c x} hx => ?_
  · rw [hk]
    exact le_of_eq (Heap.next_modify _ _ _).symm
  · have hx' : (k.setTask t f).task c = some x := by
      rw [← hx, Kernel.task, Kernel.task, hk]
    by_cases hct : c = t
    · subst hct
      rw [Kernel.task_setTask_self _ ht, Option.some.injEq] at hx'
      subst hx'
      exact ⟨task, ht, ha⟩
    · rw [Kernel.task_setTask_of_ne _ _ hct] at hx'
      exact ⟨x, hx', rfl, rfl, rfl, Iff.rfl, id⟩

/-- A new task comes onto the list. -/
theorem list {task : Task} {parent : Option TaskId} (h : Lineage k fl) (hr : Roster k fl)
    (hl : fl.limbo = some t) (ht : k.task t = some task) (ho : t ∉ k.order) (hst : task.state = .runnable)
    (hf : Fathers k parent task) :
    Lineage ({ k with order := t :: k.order }.record (.spawned parent t task.pid)) { fl with limbo := none } := by
  obtain ⟨hpos, hnew⟩ := h.limbo hl ht (by rw [hst]; simp)
  have hkin : Kin k.history parent task.ppid ∧ ∀ p, parent = some p → Born k.history p := by
    cases parent with
    | none => exact ⟨hf, fun p hp => by cases hp⟩
    | some p =>
      obtain ⟨hmem, x, hx, hppid⟩ := hf
      obtain ⟨gp, hs, -⟩ := h.bears hmem hx
      refine ⟨⟨gp, ?_⟩, fun q hq => ?_⟩
      · rw [hppid]
        exact hs
      · cases hq
        exact ⟨gp, _, hs⟩
  have hold : ∀ {e}, e ∈ k.history ++ [Passage.spawned parent t task.pid] →
      e ∈ k.history ∨ e = .spawned parent t task.pid := by
    intro e he
    rcases List.mem_append.mp he with he | he
    · exact .inl he
    · exact .inr (List.mem_singleton.mp he)
  have hunborn : ¬ Born k.history t := by
    rintro ⟨p, pid, hs⟩
    exact (hnew hs).1 rfl
  refine ⟨.snoc h.chronicle ⟨hpos, hkin.2, fun p c q hs => hnew hs⟩, ?_, ?_, ?_, ?_, ?_, ?_, ?_, ?_, ?_⟩
  · intro p c pid hs
    rcases hold hs with hs | hs
    · exact h.known hs
    · cases hs
      exact ⟨Heap.lt_next_of_get ht, hr.pidLe ht⟩
  · intro c x hc hx
    rcases List.mem_cons.mp hc with rfl | hc
    · have hx' : k.task c = some x := hx
      rw [ht, Option.some.injEq] at hx'
      subst hx'
      exact ⟨parent, List.mem_append_right _ (List.mem_singleton.mpr rfl), hkin.1.mono _⟩
    · obtain ⟨gp, hs, hk⟩ := h.bears hc hx
      exact ⟨gp, List.mem_append_left _ hs, hk.mono _⟩
  · intro c x hc hx hz
    rcases List.mem_cons.mp hc with rfl | hc
    · have hx' : k.task c = some x := hx
      rw [ht, Option.some.injEq] at hx'
      subst hx'
      rw [hst] at hz
      cases hz
    · obtain ⟨status, hs, heq⟩ := h.zombie hc hx hz
      exact ⟨status, List.mem_append_left _ hs, heq⟩
  · intro c x status hs hc hx
    rcases hold hs with hx' | hx'
    · rcases List.mem_cons.mp hc with rfl | hc
      · exact absurd (h.chronicle.born_of_exited hx') hunborn
      · exact h.left hx' hc hx
    · cases hx'
  · rintro c ⟨p, pid, hs⟩
    rcases hold hs with hs | hs
    · rcases h.listed ⟨p, pid, hs⟩ with hmem | ⟨q, b, status, hb⟩
      · exact .inl (List.mem_cons_of_mem _ hmem)
      · exact .inr ⟨q, b, status, List.mem_append_left _ hb⟩
    · cases hs
      exact .inl List.mem_cons_self
  · rintro c ⟨q, b, status, hb⟩ hc
    rcases hold hb with hb' | hb'
    · rcases List.mem_cons.mp hc with rfl | hc
      · exact hunborn (h.chronicle.born_of_buried ⟨q, b, status, hb'⟩)
      · exact h.buried ⟨q, b, status, hb'⟩ hc
    · cases hb'
  · intro c hc
    cases hc
  · intro c x hc
    cases hc
  · intro c hc
    exact List.mem_cons_of_mem _ (h.cursor hc)

/-- The parent's pid and the history agree on who is whose child. -/
theorem child_iff {p c : TaskId} {parent child : Task} (h : Lineage k fl) (hpmem : p ∈ k.order)
    (hp : k.task p = some parent) (hmem : c ∈ k.order) (hc : k.task c = some child) :
    child.ppid = parent.pid ↔ .spawned (some p) c child.pid ∈ k.history := by
  obtain ⟨gp, hparent, -⟩ := h.bears hpmem hp
  obtain ⟨q, hchild, hkin⟩ := h.bears hmem hc
  constructor
  · intro hppid
    cases q with
    | none =>
      have hpos := h.chronicle.spawned_pos hparent
      have hzero : child.ppid = 0 := hkin
      omega
    | some q =>
      obtain ⟨gq, hq⟩ := hkin
      rw [hppid] at hq
      have hqp := (h.chronicle.spawned_unique hq hparent).1.mpr rfl
      rw [← hqp]
      exact hchild
  · intro hspawned
    have hq := (h.chronicle.spawned_unique hchild hspawned).2 rfl
    rw [hq] at hkin
    obtain ⟨gq, hq⟩ := hkin
    exact (h.chronicle.spawned_unique hq hparent).1.mp rfl

/-- A zombie is taken off the list. -/
theorem unlist {p c : TaskId} {parent child : Task} (h : Lineage k fl) (hr : Roster k fl) (hcur : k.current = some p)
    (hp : k.task p = some parent) (hppid : child.ppid = parent.pid) (hmem : c ∈ k.order)
    (hc : k.task c = some child) (hst : child.state = .zombie) :
    Lineage (CannedBsd.unlist (k.record (.reaped p c child.pid child.exitStatus)) c) { fl with limbo := some c } := by
  obtain ⟨hpmem, -⟩ := hr.current hcur
  have hspawned := (h.child_iff hpmem hp hmem hc).mp hppid
  obtain ⟨status, hexit, hstatus⟩ := h.zombie hmem hc hst
  have hout : ∀ {x}, x ∈ k.order.erase c → x ≠ c ∧ x ∈ k.order := fun hx => (List.Nodup.mem_erase_iff hr.nodup).mp hx
  have htask : ∀ {x task}, x ≠ c →
      (CannedBsd.unlist (k.record (.reaped p c child.pid child.exitStatus)) c).task x = some task →
      k.task x = some task := by
    intro x task hne hx
    rw [CannedBsd.unlist, Kernel.task_setTask_of_ne _ _ hne] at hx
    exact hx
  have hold : ∀ {e}, e ∈ k.history ++ [Passage.reaped p c child.pid child.exitStatus] →
      e ∈ k.history ∨ e = .reaped p c child.pid child.exitStatus := by
    intro e he
    rcases List.mem_append.mp he with he | he
    · exact .inl he
    · exact .inr (List.mem_singleton.mp he)
  refine ⟨.snoc h.chronicle ⟨hspawned, ⟨status, hexit, hstatus⟩, fun hb => h.buried hb hmem⟩, ?_, ?_, ?_, ?_, ?_, ?_,
    ?_, ?_, ?_⟩
  · intro q x pid hs
    show x < (k.tasks.modify c _).next ∧ pid ≤ k.nextPid
    rw [Heap.next_modify]
    rcases hold hs with hs | hs
    · exact h.known hs
    · cases hs
  · intro x task hx htx
    obtain ⟨hne, hx⟩ := hout hx
    obtain ⟨q, hs, hk⟩ := h.bears hx (htask hne htx)
    exact ⟨q, List.mem_append_left _ hs, hk.mono _⟩
  · intro x task hx htx hz
    obtain ⟨hne, hx⟩ := hout hx
    obtain ⟨status, hs, heq⟩ := h.zombie hx (htask hne htx) hz
    exact ⟨status, List.mem_append_left _ hs, heq⟩
  · intro x task status hs hx htx
    obtain ⟨hne, hx⟩ := hout hx
    rcases hold hs with hs | hs
    · exact h.left hs hx (htask hne htx)
    · cases hs
  · rintro x ⟨q, pid, hs⟩
    rcases hold hs with hs | hs
    · by_cases hne : x = c
      · subst hne
        exact .inr ⟨p, _, _, List.mem_append_right _ (List.mem_singleton.mpr rfl)⟩
      · rcases h.listed ⟨q, pid, hs⟩ with hx | ⟨r, b, status, hb⟩
        · exact .inl ((List.Nodup.mem_erase_iff hr.nodup).mpr ⟨hne, hx⟩)
        · exact .inr ⟨r, b, status, List.mem_append_left _ hb⟩
    · cases hs
  · rintro x ⟨q, b, status, hb⟩ hx
    obtain ⟨hne, hx⟩ := hout hx
    rcases hold hb with hb | hb
    · exact h.buried ⟨q, b, status, hb⟩ hx
    · cases hb
      exact hne rfl
  · intro x hx
    cases hx
    exact hr.nodup.not_mem_erase
  · intro x task hx htx hd
    cases hx
    rw [CannedBsd.unlist, Kernel.task_setTask, if_pos rfl] at htx
    obtain ⟨y, -, rfl⟩ := Option.map_eq_some_iff.mp htx
    exact absurd rfl hd
  · intro x hx
    have hcursor : (if k.scheduleCursor = some c then none else k.scheduleCursor) = some x := hx
    split at hcursor
    · cases hcursor
    · rename_i hne
      refine (List.Nodup.mem_erase_iff hr.nodup).mpr ⟨?_, h.cursor hcursor⟩
      rintro rfl
      exact hne hcursor

/-- A task exits. -/
theorem retire {task : Task} {status : ℤ} (h : Lineage k fl) (hr : Roster k fl) (hcur : k.current = some t)
    (ht : k.task t = some task) : Lineage (retire k t task status) fl := by
  obtain ⟨hmem, -⟩ := hr.current hcur
  have hst := (hr.current_task hcur ht).2
  have hfirst : ∀ s, .exited t s ∉ k.history := by
    intro s hs
    have hz := h.left hs hmem ht
    rw [hst] at hz
    cases hz
  obtain ⟨finished, bootStatus, heq⟩ := retire_eq k t task status
  rw [heq]
  have htask : ∀ {c x}, (k.setTask t fun task => { task with exitStatus := status % 256, state := .zombie }).task c =
      some x → c = t ∧ x = { task with exitStatus := status % 256, state := .zombie } ∨ c ≠ t ∧ k.task c = some x := by
    intro c x hx
    by_cases hct : c = t
    · subst hct
      rw [Kernel.task_setTask_self _ ht, Option.some.injEq] at hx
      exact .inl ⟨rfl, hx.symm⟩
    · rw [Kernel.task_setTask_of_ne _ _ hct] at hx
      exact .inr ⟨hct, hx⟩
  have hold : ∀ {e}, e ∈ k.history ++ [Passage.exited t status] → e ∈ k.history ∨ e = .exited t status := by
    intro e he
    rcases List.mem_append.mp he with he | he
    · exact .inl he
    · exact .inr (List.mem_singleton.mp he)
  refine ⟨.snoc h.chronicle ⟨h.born hmem ht, hfirst⟩, ?_, ?_, ?_, ?_, ?_, ?_, h.unlisted, ?_,
    h.cursor⟩
  · intro p c pid hs
    show c < (k.tasks.modify t _).next ∧ pid ≤ k.nextPid
    rw [Heap.next_modify]
    rcases hold hs with hs' | hs'
    · exact h.known hs'
    · cases hs'
  · intro c x hc hx
    rcases htask hx with ⟨rfl, rfl⟩ | ⟨-, hx'⟩
    · obtain ⟨p, hs, hk⟩ := h.bears hmem ht
      exact ⟨p, List.mem_append_left _ hs, hk.mono _⟩
    · obtain ⟨p, hs, hk⟩ := h.bears hc hx'
      exact ⟨p, List.mem_append_left _ hs, hk.mono _⟩
  · intro c x hc hx hz
    rcases htask hx with ⟨rfl, rfl⟩ | ⟨-, hx'⟩
    · exact ⟨status, List.mem_append_right _ (List.mem_singleton.mpr rfl), rfl⟩
    · obtain ⟨s, hs, heq⟩ := h.zombie hc hx' hz
      exact ⟨s, List.mem_append_left _ hs, heq⟩
  · intro c x s hs hc hx
    rcases htask hx with ⟨rfl, rfl⟩ | ⟨hne, hx'⟩
    · rfl
    · rcases hold hs with hs' | hs'
      · exact h.left hs' hc hx'
      · cases hs'
        exact absurd rfl hne
  · rintro c ⟨p, pid, hs⟩
    rcases hold hs with hs' | hs'
    · rcases h.listed ⟨p, pid, hs'⟩ with hc | ⟨q, b, s, hb⟩
      · exact .inl hc
      · exact .inr ⟨q, b, s, List.mem_append_left _ hb⟩
    · cases hs'
  · rintro c ⟨q, b, s, hb⟩
    rcases hold hb with hb' | hb'
    · exact h.buried ⟨q, b, s, hb'⟩
    · cases hb'
  · intro c x hc hx hd
    rcases htask hx with ⟨rfl, rfl⟩ | ⟨-, hx'⟩
    · exact absurd hmem (h.unlisted hc)
    · obtain ⟨hpos, hnew⟩ := h.limbo hc hx' hd
      refine ⟨hpos, fun hs => ?_⟩
      rcases hold hs with hs' | hs'
      · exact hnew hs'
      · cases hs'

theorem sched (h : Lineage k fl) (hr : Roster k fl) (hs : Sched k fl k' fl') : Lineage k' fl' := by
  cases hs with
  | calm hc => exact h.resting hc.rest hc.history hc.cursor rfl
  | @dispatch _ t task hcur hfin hmem ht hst hw =>
    refine h.setTask (f := fun task => { task with state := .running }) ht ⟨rfl, rfl, rfl, ?_, fun hd => ?_⟩ rfl rfl rfl
      le_rfl rfl fun hc => ?_
    · rw [hst]
      exact ⟨fun hz => (by cases hz), fun hz => (by cases hz)⟩
    · rw [hst] at hd
      cases hd
    · cases hc
      exact hmem
  | @yield _ t task state frame hcur ht hs hp hw hf =>
    have hst := (hr.current_task hcur ht).2
    refine h.setTask (f := fun task => { task with wakeReason := .none, state := state, frame := frame }) ht
      ⟨rfl, rfl, rfl, ?_, fun hd => ?_⟩ rfl rfl rfl le_rfl rfl h.cursor
    · rw [hst]
      refine ⟨fun hz => ?_, fun hz => (by cases hz)⟩
      have hz' : state = .zombie := hz
      rw [hz'] at hs
      cases hs
    · rw [hst] at hd
      cases hd
  | @exec _ t task hcur ht hw =>
    have hst := (hr.current_task hcur ht).2
    refine h.setTask (f := fun task => { task with wakeReason := .none, state := .execPending, frame := .entry }) ht
      ⟨rfl, rfl, rfl, ?_, fun hd => ?_⟩ rfl rfl rfl le_rfl rfl h.cursor
    · rw [hst]
      exact ⟨fun hz => (by cases hz), fun hz => (by cases hz)⟩
    · rw [hst] at hd
      cases hd
  | @restart _ t task f fatal hfin ht hh hpid hppid hpend hst hfr hfit hexit =>
    obtain ⟨-, x, hx, hexec⟩ := hr.finishing hfin
    rw [ht, Option.some.injEq] at hx
    subst hx
    refine h.setTask (f := f) ht ⟨hpid, hppid, hexit, ?_, fun hd => ?_⟩ rfl rfl rfl le_rfl rfl h.cursor
    · rw [hst, hexec]
      exact ⟨fun hz => (by cases hz), fun hz => (by cases hz)⟩
    · rw [hexec] at hd
      cases hd
  | @leave _ t task status hcur ht hdirs =>
    have hwake := (Roster.resting_wakeWaitingParent (CannedBsd.retire k t task status) task)
    obtain ⟨hhist, hcursor⟩ := history_wakeWaitingParent (CannedBsd.retire k t task status) task
    have hafter : Lineage (wakeWaitingParent (CannedBsd.retire k t task status) task) fl :=
      (h.retire hr hcur ht).resting hwake hhist hcursor rfl
    exact ⟨hafter.chronicle, hafter.known, hafter.bears, hafter.zombie, hafter.left, hafter.listed, hafter.buried,
      hafter.unlisted, hafter.limbo, hafter.cursor⟩
  | @list _ t task parent hl ht hmem hst hfr hfit hfath => exact h.list hr hl ht hmem hst hfath
  | @unlist _ p c parent child hl hcur hp hppid hmem hc hst => exact h.unlist hr hcur hp hppid hmem hc hst

/-- `retain` and `release` and everything that only moves references. -/
theorem same (h : Lineage k fl) (hh : k'.history = k.history) (ho : k'.order = k.order) (ht : k'.tasks = k.tasks)
    (hp : k'.nextPid = k.nextPid) (hc : k'.scheduleCursor = k.scheduleCursor) (hl : fl'.limbo = fl.limbo) :
    Lineage k' fl' := by
  refine h.keep hh ho ?_ (le_of_eq hp.symm) hl (fun hx => h.cursor (hc ▸ hx)) fun {t task'} hx => ?_
  · rw [ht]
  · rw [Kernel.task, ht] at hx
    exact ⟨task', hx, rfl, rfl, rfl, Iff.rfl, id⟩

theorem micro (h : Lineage k fl) (hr : Roster k fl) (hm : Micro gone k fl k' fl') : Lineage k' fl' := by
  cases hm with
  | vfs hv => exact h.same rfl rfl rfl rfl rfl rfl
  | sched hs => exact h.sched hr hs
  | @hold _ _ t task f ht hx =>
    refine h.setTask (f := f) ht ⟨hx.pid, hx.ppid, hx.exitStatus, ?_, fun hd => ?_⟩ rfl rfl rfl le_rfl hx.limbo h.cursor
    · rw [hx.state]
    · rw [hx.state, hd]
  | @create _ task a hl hn hs hroot hpid hst hfr hdirs hpend =>
    have htask : ∀ {c}, c ∈ k.order → (k.tasks.alloc task).get c = k.task c := by
      intro c hc
      obtain ⟨x, hx⟩ := hr.live hc
      exact Heap.get_alloc_of_ne _ _ (Nat.ne_of_lt (Heap.lt_next_of_get hx))
    refine ⟨h.chronicle, fun hs => ?_, fun hc hx => ?_, fun hc hx => ?_, fun hs hc hx => ?_, h.listed, h.buried, ?_, ?_,
      h.cursor⟩
    · obtain ⟨hlt, hle⟩ := h.known hs
      rw [Heap.next_alloc]
      exact ⟨hlt.trans (Nat.lt_succ_self _), hle.trans (Nat.le_succ _)⟩
    · exact h.bears hc ((htask hc).symm.trans hx)
    · exact h.zombie hc ((htask hc).symm.trans hx)
    · exact h.left hs hc ((htask hc).symm.trans hx)
    · intro c hc hmem
      cases hc
      obtain ⟨x, hx⟩ := hr.live hmem
      rw [Kernel.task, Heap.get_next] at hx
      cases hx
    · intro c x hc hx hd
      cases hc
      have hx' : (k.tasks.alloc task).get k.tasks.next = some x := hx
      rw [Heap.get_alloc, if_pos rfl, Option.some.injEq] at hx'
      subst hx'
      refine ⟨by omega, fun {p c pid} hs => ?_⟩
      obtain ⟨hlt, hle⟩ := h.known hs
      exact ⟨Nat.ne_of_lt hlt, by omega⟩
  | @destroy _ t task a hl hmem ht ha hs =>
    have htask : ∀ {c x}, (k.tasks.free t).get c = some x → k.task c = some x := by
      intro c x hx
      rw [Heap.get_free] at hx
      split at hx
      · cases hx
      · exact hx
    refine ⟨h.chronicle, fun hs => ?_, fun hc hx => h.bears hc (htask hx), fun hc hx => h.zombie hc (htask hx),
      fun hs hc hx => h.left hs hc (htask hx), h.listed, h.buried, fun hc => (by cases hc), fun hc => (by cases hc),
      h.cursor⟩
    rw [Heap.next_free]
    exact h.known hs
  | leak => exact h.same rfl rfl rfl rfl rfl rfl
  | file => exact h.same rfl rfl rfl rfl rfl rfl
  | openFile => exact h.same rfl rfl rfl rfl rfl rfl
  | closeFile => exact h.same rfl rfl rfl rfl rfl rfl
  | openPipe => exact h.same rfl rfl rfl rfl rfl rfl
  | openWriter => exact h.same rfl rfl rfl rfl rfl rfl
  | closeReader =>
    exact h.resting ((resting_pipeClose _ _ _).after rfl rfl rfl rfl rfl) (history_pipeClose _ _ _).1
      (history_pipeClose _ _ _).2 rfl
  | closeWriter =>
    exact h.resting ((resting_pipeClose _ _ _).after rfl rfl rfl rfl rfl) (history_pipeClose _ _ _).1
      (history_pipeClose _ _ _).2 rfl
  | fetch => exact h.resting ((Books.calm_cbWakePipeTasks _).rest.after rfl rfl rfl rfl rfl) rfl rfl rfl
  | beginWrite => exact h.same rfl rfl rfl rfl rfl rfl
  | store => exact h.resting ((Books.calm_cbWakePipeTasks _).rest.after rfl rfl rfl rfl rfl) rfl rfl rfl
  | endWrite => exact h.same rfl rfl rfl rfl rfl rfl

end Lineage

end CannedBsd
