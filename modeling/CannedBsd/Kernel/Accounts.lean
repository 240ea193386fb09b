import CannedBsd.Kernel.Reachable

/-!
# Reference counts between calls

The counts of nodes and open files agree with the pointers to them. For open files that holds in
every reachable state. For nodes it holds as long as `dir_close_all` meets no handle with a look-ahead
entry, because it forgets the reference of that entry.

* `tidy_counted`: every node is counted right in every state of a run that ends no task with a look-ahead
  entry.
* `exit_loses_lookahead`: an exit with an open handle leaves a reference nobody holds.
* `reachable_filesCounted`: the counts of open files are right in every reachable state, and the pipe calls
  see the ends that tasks can still use.
-/

namespace CannedBsd

open CannedBsd.Lib

variable {k : Kernel} {l : NodeId → ℕ}

/-! ### Nodes -/

/-- The count of every node is the number of pointers to it: one for its directory entry or for the
mount it is the root of, one for each mount on it, and one for each open file, each task field and
each field of a handle in use. -/
def Counted (k : Kernel) : Prop :=
  ∀ n node, k.vfs.node n = some node →
    node.references = anchor k.vfs n node + mountsOn k.vfs n + k.holders n

/-- **Node accounting.**  In a run in which no task that ends or is replaced has a look-ahead entry
in a handle it left open, every node is counted right in every state. -/
theorem tidy_counted (hr : ReachBy TidyStep k) : Counted k := by
  intro n node hn
  have hc := hr.tidy_base.books.vfs.refs.count hn
  simpa [Flight.rest] using hc

instance (k : Kernel) (t : TaskId) : Decidable (Tidy k t) :=
  inferInstanceAs (Decidable (∀ d, (k.dir t d).inUse = true → (k.dir t d).next = none))

instance (k : Kernel) (a : Action) : Decidable (TidyStep k a) :=
  match h : closesHandles k a with
  | none => isTrue fun t ht => by rw [h] at ht; cases ht
  | some t => decidable_of_iff (Tidy k t)
      ⟨fun hx t' ht => by rw [h, Option.some.injEq] at ht; exact ht ▸ hx, fun hx => hx t h⟩

/-- A shell that closes its handle before it exits. -/
theorem tidy_counted_closedir :
    Counted (stateAfter (shellStart ++ calls [.opendir [slash], .readdir 0 64, .closedir 0, .exit 0])) :=
  tidy_counted (reachBy_stateAfter (by decide +kernel))

/-- The shell opens the root directory and exits: the entry it would have read next keeps a
reference nobody holds. -/
theorem exit_loses_lookahead :
    Reachable (stateAfter (shellStart ++ calls [.opendir [slash], .exit 0])) ∧
      ¬ Counted (stateAfter (shellStart ++ calls [.opendir [slash], .exit 0])) := by
  refine ⟨reachable_stateAfter _, fun hcount => ?_⟩
  have hlive : ∃ node, (stateAfter (shellStart ++ calls [.opendir [slash], .exit 0])).vfs.node 3 = some node ∧
      node.references = 2 ∧
      anchor (stateAfter (shellStart ++ calls [.opendir [slash], .exit 0])).vfs 3 node = 1 := by
    have hsome : ((stateAfter (shellStart ++ calls [.opendir [slash], .exit 0])).vfs.node 3).any (fun node =>
        decide (node.references = 2 ∧
          anchor (stateAfter (shellStart ++ calls [.opendir [slash], .exit 0])).vfs 3 node = 1)) = true := by
      decide +kernel
    rw [Option.any_eq_true] at hsome
    obtain ⟨node, hn, hnode⟩ := hsome
    exact ⟨node, hn, of_decide_eq_true hnode⟩
  obtain ⟨node, hn, href, hanchor⟩ := hlive
  have hbal := hcount 3 node hn
  have hzero : mountsOn (stateAfter (shellStart ++ calls [.opendir [slash], .exit 0])).vfs 3 = 0 ∧
      (stateAfter (shellStart ++ calls [.opendir [slash], .exit 0])).holders 3 = 0 := by
    decide +kernel
  omega

/-! ### Open files -/

/-- An open file of the object exists exactly if some descriptor refers to it. -/
theorem Books.ends_eq_zero {fl : Flight} (hb : Books k fl) (hf : ∀ f, fl.files f = 0) (object : FileObject) :
    k.ends object = 0 ↔ ∀ t task, k.task t = some task → ¬ Refers k task object := by
  constructor
  · rintro hz t task ht ⟨d, entry, file, hd, hfile, ho⟩
    have hle := Heap.le_total (endHold object) hfile
    rw [endHold, if_pos ho] at hle
    rw [Kernel.ends] at hz
    omega
  · intro hno
    by_contra hne
    obtain ⟨f, file, hfile, hpos⟩ := Heap.exists_of_total_pos (endHold object) (Nat.pos_of_ne_zero hne)
    have ho : file.object = object := by
      by_contra hneq
      rw [endHold, if_neg hneq] at hpos
      omega
    obtain ⟨hrefs, hlive⟩ := hb.files hfile
    rw [hf] at hrefs
    have hslots : 0 < k.tasks.total (slotHold f) := by
      rw [Kernel.slots] at hrefs
      omega
    obtain ⟨t, task, ht, hslot⟩ := Heap.exists_of_total_pos (slotHold f) hslots
    obtain ⟨d, -, hd⟩ := Finset.exists_ne_zero_of_sum_ne_zero (Nat.pos_iff_ne_zero.mp hslot)
    cases hentry : task.descriptors d with
    | none =>
      rw [hentry] at hd
      exact hd rfl
    | some entry =>
      have heq : entry.file = f := by
        by_contra hneq
        rw [hentry, Option.map_some, pointsTo_of_ne (Ne.symm hneq)] at hd
        exact hd rfl
      exact hno t task ht ⟨d, entry, file, hentry, by rw [heq, hfile], ho⟩

/-- The error number a call returns with. -/
def Outcome.error : Outcome → Option ℤ
  | .done r _ => r.error
  | _ => none

/-- No descriptor of any task refers to the object. -/
def Unreferred (k : Kernel) (object : FileObject) : Prop :=
  ∀ t task, k.task t = some task → ¬ Refers k task object

theorem pipes_store (k : Kernel) (p : PipeId) (g : Pipe → Pipe) (e : Event) :
    (cbWakePipeTasks ((k.setPipe p g).log e)).pipes = k.pipes.modify p g := rfl

/-- A write returns `EPIPE` exactly if the pipe has no reader: no round of the loop changes that. -/
theorem pipeWriteLoop_epipe (p : PipeId) (call : ℕ) (buffer : Bytes) (fuel : ℕ) :
    ∀ (k : Kernel) (pipe : Pipe) (total : ℕ), k.pipes.get p = some pipe → total < buffer.length →
      buffer.length - total < fuel →
      ((pipeWriteLoop p call buffer fuel k total).2.error = some Errno.epipe.code ↔ pipe.readers = 0) := by
  induction fuel with
  | zero =>
    intro k pipe total _ _ hfuel
    omega
  | succ fuel ih =>
    intro k pipe total hp hlt hfuel
    rw [pipeWriteLoop, if_neg (by omega), hp]
    dsimp only
    split
    · rename_i hz
      exact ⟨fun _ => hz, fun _ => rfl⟩
    rename_i hreaders
    split
    · exact ⟨fun h => (by cases h), fun hz => absurd hz hreaders⟩
    rename_i hroom
    set bytes := (buffer.drop total).take (cbPipeBytes - pipe.used) with hbytes
    have hlen : bytes.length = min (cbPipeBytes - pipe.used) (buffer.length - total) := by
      rw [hbytes, List.length_take, List.length_drop]
    set g : Pipe → Pipe := fun pipe =>
      { pipe with data := pipePut pipe bytes, used := pipe.used + bytes.length } with hg
    set k' := cbWakePipeTasks ((k.setPipe p g).log (.stored p call bytes)) with hk'
    have hp' : k'.pipes.get p = some (g pipe) := by
      rw [hk', pipes_store, Heap.get_modify, if_pos rfl, hp, Option.map_some]
    by_cases hend : buffer.length ≤ total + bytes.length
    · cases fuel with
      | zero => omega
      | succ fuel =>
        rw [pipeWriteLoop, if_pos hend]
        exact ⟨fun h => (by cases h), fun hz => absurd hz hreaders⟩
    · exact ih k' (g pipe) (total + bytes.length) hp' (by omega) (by omega)

/-- The count of every open file is the number of descriptor slots that hold it, and `last_close` has
run once for each open file that no slot holds any more. -/
structure FilesCounted (k : Kernel) : Prop where
  references : ∀ f file, k.files.get f = some file → file.references = k.slots f
  closed : ∀ f, k.trace.count (.lastClose f) = if f < k.files.next ∧ k.slots f = 0 then 1 else 0

/-- An empty pipe ends for a reader, and a write fails, exactly when nobody can use the other end. -/
structure EndsSeen (k : Kernel) (p : PipeId) (pipe : Pipe) : Prop where
  eof : ∀ count, 0 < count → pipe.used = 0 →
    ((pipeRead k p count).2 = .done ⟨0, [], none⟩ .none ↔ Unreferred k (.pipeWrite p)) ∧
    (¬ Unreferred k (.pipeWrite p) → (pipeRead k p count).2 = .block .blockedPipe (.pipeRead p count))
  epipe : ∀ call buffer total, total < buffer.length →
    ((pipeWrite k p call buffer total).2.error = some Errno.epipe.code ↔ Unreferred k (.pipeRead p))

theorem Books.filesCounted (hb : Books k (.rest l)) : FilesCounted k := by
  refine ⟨fun f file hf => (hb.files hf).1, fun f => ?_⟩
  rw [hb.closes, Heap.freed]
  by_cases hlt : f < k.files.next
  · cases hf : k.files.get f with
    | none =>
      have hz : k.slots f = 0 := hb.freedFiles hf
      rw [if_pos ⟨hlt, rfl⟩, if_pos ⟨hlt, hz⟩]
    | some file =>
      obtain ⟨hrefs, hpos⟩ := hb.files hf
      have hne : k.slots f ≠ 0 := by
        have hsum : file.references = k.slots f := hrefs
        omega
      rw [if_neg fun h => Option.some_ne_none file h.2, if_neg fun h => hne h.2]
  · rw [if_neg fun h => hlt h.1, if_neg fun h => hlt h.1]

theorem Books.endsSeen (hb : Books k (.rest l)) {p : PipeId} {pipe : Pipe} (hp : k.pipes.get p = some pipe) :
    EndsSeen k p pipe := by
  obtain ⟨hreaders, hwriters⟩ := hb.pipes hp
  have hread : Unreferred k (.pipeRead p) ↔ pipe.readers = 0 := by
    rw [hreaders]
    exact (hb.ends_eq_zero (fun _ => rfl) _).symm
  have hwrite : Unreferred k (.pipeWrite p) ↔ pipe.writers = 0 := by
    rw [hwriters]
    exact (hb.ends_eq_zero (fun _ => rfl) _).symm
  refine ⟨fun count hc hempty => ?_, fun call buffer total hlt => ?_⟩
  · rw [hwrite, pipeRead, hp]
    dsimp only
    rw [if_neg (by omega), if_pos hempty]
    by_cases hz : pipe.writers = 0
    · rw [if_pos hz]
      exact ⟨⟨fun _ => hz, fun _ => rfl⟩, fun hno => absurd hz hno⟩
    · rw [if_neg hz]
      exact ⟨⟨fun h => (by cases h), fun h => absurd h hz⟩, fun _ => rfl⟩
  · rw [hread, pipeWrite]
    exact pipeWriteLoop_epipe p call buffer _ k pipe total hp hlt (Nat.lt_succ_self _)

/-- **Open files.**  In every reachable state the counts of open files are the numbers of descriptor
slots, and the pipe calls see the ends of a pipe that tasks can still use. A call looks at the pipe
in the state it is made in, or after the scheduler has switched to the suspended task, which changes
no pointer. -/
theorem reachable_filesCounted (hr : Reachable k) :
    FilesCounted k ∧ ∀ k₀, SamePointers k k₀ → ∀ p pipe, k₀.pipes.get p = some pipe → EndsSeen k₀ p pipe := by
  obtain ⟨l, hb⟩ := hr.base
  exact ⟨hb.books.filesCounted, fun k₀ hs p pipe hp => (hb.books.pointers hs).endsSeen hp⟩

/-- A pipe whose write end is closed again. -/
theorem reachable_filesCounted_pipe :
    FilesCounted (stateAfter (shellStart ++ calls [.pipe, .close 4])) :=
  (reachable_filesCounted (reachable_stateAfter _)).1

end CannedBsd
