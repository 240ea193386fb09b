import CannedBsd.Kernel.Reachable

/-!
# Failed opens

`api_open` finds or creates the node, cuts it to size zero when it is asked to, allocates the
open-file object and only then looks for a descriptor. A refusal before the node is touched changes
nothing. The two last steps can still be refused, and nothing undoes what has been done by then.

* `openAt_refusedLate`: a refusal behind the cut leaves the node cut.
* `open_failure_unaltered`: exactly when a failed `open` leaves tree, contents, offsets and descriptors as
  they were.
* `open_failure_loses_contents`: with a full table `O_TRUNC` empties the file and the call fails with
  `EMFILE`.
-/

namespace CannedBsd

open CannedBsd.Lib

variable {h : Host} {k k' : Kernel} {t : TaskId} {n : NodeId} {node : Node} {flags : OpenFlags}

/-- The directory tree, the contents of all files, the offsets of all open files and the descriptors
of the task are the same. -/
structure Unaltered (k k' : Kernel) (t : TaskId) : Prop where
  mounts : SameMounts k.vfs k'.vfs
  tree : SameShape k.vfs k'.vfs
  contents : ∀ n, (k'.vfs.node n).map Node.content = (k.vfs.node n).map Node.content
  sizes : ∀ n, (k'.vfs.node n).map Node.size = (k.vfs.node n).map Node.size
  offsets : ∀ f, (k'.files.get f).map OpenFile.offset = (k.files.get f).map OpenFile.offset
  descriptors : ∀ d, k'.slot t d = k.slot t d

/-- The call returned `-1`. -/
def Outcome.failed : Outcome → Prop
  | .done r _ => r.value = -1
  | _ => False

/-- The open-file object cannot be allocated, or the descriptor table is full. -/
def refusedLate (h : Host) (k : Kernel) (t : TaskId) : Prop :=
  h.allocate .openFile = false ∨ (k.task t).bind freeSlot = none

/-- Opening the node sets its size to zero. -/
def cuts (node : Node) (flags : OpenFlags) : Prop :=
  node.type ≠ .directory ∧ node.type ≠ .executable ∧ flags.trunc = true ∧ flags.access ≠ .rdonly

/-- The path leads to a file with contents that the call cuts, or to a place where the call makes a
new file. -/
def altersFirst (h : Host) (k : Kernel) (t : TaskId) (path : Bytes) (flags : OpenFlags) (mode : ℕ) : Prop :=
  ∃ normalized, normalizeForTask k.vfs (k.viewOf t) path = .ok normalized ∧
    ((∃ n node, resolveNormalized k.vfs (k.viewOf t) normalized = .ok n ∧ k.vfs.node n = some node ∧
        cuts node flags ∧ node.size ≠ 0) ∨
      resolveNormalized k.vfs (k.viewOf t) normalized = .error .enoent ∧ flags.creat = true ∧
        ∃ made, createAt h k.vfs (k.viewOf t) normalized .regular (if mode = 0 then 0o666 else mode) = .ok made)

/-! ### From the node on -/

/-- `api_open` from the node operation on. -/
def openAt (h : Host) (k : Kernel) (t : TaskId) (n : NodeId) (flags : OpenFlags) : Kernel × Outcome :=
  match openNode h k n flags with
  | (k, .error e) => (k, .fail e)
  | (k, .ok f) =>
    match fdInstall k t f with
    | (k, none) => (cbOpenFileRelease k f, .fail .emfile)
    | (k, some d) => (k, .done ⟨d.val, [], some 0⟩ .none)

/-- Node `n` is `node` afterwards; nothing else has changed. -/
structure Replaced (k k' : Kernel) (t : TaskId) (n : NodeId) (node : Node) : Prop where
  mounts : SameMounts k.vfs k'.vfs
  nodes : ∀ c, k'.vfs.node c = if c = n then some node else k.vfs.node c
  files : ∀ f, k'.files.get f = k.files.get f
  slots : ∀ d, k'.slot t d = k.slot t d

theorem Unaltered.refl (k : Kernel) (t : TaskId) : Unaltered k k t :=
  ⟨.refl _, .refl _, fun _ => rfl, fun _ => rfl, fun _ => rfl, fun _ => rfl⟩

theorem cutAtOpen_of_not_cuts (hd : node.type ≠ .directory) (hx : ¬ (node.type = .executable ∧ flags.trunc = true))
    (hc : ¬ cuts node flags) : cutAtOpen node flags = node := by
  rw [cutAtOpen, if_neg]
  rintro ⟨htrunc, hacc⟩
  exact hc ⟨hd, fun hex => hx ⟨hex, htrunc⟩, htrunc, hacc⟩

/-- A reference that is taken and given back leaves every node as it was. -/
theorem node_release_retain {v : Vfs} (hn : v.node n = some node) (href : 0 < node.references) :
    SameMounts v (ramfsNodeRelease (ramfsNodeRetain v n) n) ∧
      ∀ c, (ramfsNodeRelease (ramfsNodeRetain v n) n).node c = v.node c := by
  have hkept : (ramfsNodeRetain v n).node n = some { node with references := node.references + 1 } := by
    rw [ramfsNodeRetain, Vfs.node_setNode_self, hn]
    rfl
  have heq : ramfsNodeRelease (ramfsNodeRetain v n) n =
      (ramfsNodeRetain v n).setNode n fun x => { x with references := x.references - 1 } := by
    rw [ramfsNodeRelease, nodeRelease, hkept]
    exact if_neg (by dsimp only; omega)
  rw [heq]
  refine ⟨(SameMounts.setNode v n _).trans (.setNode _ n _), fun c => ?_⟩
  by_cases hc : c = n
  · subst hc
    rw [Vfs.node_setNode_self, hkept, hn]
    rfl
  · rw [Vfs.node_setNode_of_ne _ _ hc, ramfsNodeRetain, Vfs.node_setNode_of_ne _ _ hc]

/-- The node is refused as it is, before anything is done. -/
def refusedNode (node : Node) (flags : OpenFlags) : Prop :=
  node.type = .directory ∨ node.type = .executable ∧ flags.trunc = true

theorem openAt_refusedNode (hn : k.vfs.node n = some node) (href : refusedNode node flags) :
    ∃ e, openAt h k t n flags = (k, .fail e) := by
  rw [openAt, openNode, hn]
  dsimp only
  rw [ramfsOpen]
  rcases href with hd | hx
  · rw [if_pos hd]
    exact ⟨_, rfl⟩
  · rw [if_neg (by rw [hx.1]; decide), if_pos hx]
    exact ⟨_, rfl⟩

theorem ramfsOpen_eq (n : NodeId) (hok : ¬ refusedNode node flags) :
    ∃ offset, ramfsOpen node n flags = .ok (cutAtOpen node flags, ⟨1, flags, offset, .node n⟩) := by
  rw [refusedNode, not_or] at hok
  rw [ramfsOpen, if_neg hok.1, if_neg hok.2]
  exact ⟨_, rfl⟩

/-- The kernel with the open file in the hands of the call. -/
def withFile (k : Kernel) (n : NodeId) (node : Node) (file : OpenFile) : Kernel :=
  { retainNode { k with vfs := k.vfs.setNode n fun _ => node } (some n) with files := k.files.alloc file }

theorem openNode_eq (hn : k.vfs.node n = some node) (hok : ¬ refusedNode node flags) :
    ∃ offset, openNode h k n flags =
      if h.allocate .openFile = false then
        ({ k with vfs := k.vfs.setNode n fun _ => cutAtOpen node flags }, .error .enomem)
      else (withFile k n (cutAtOpen node flags) ⟨1, flags, offset, .node n⟩, .ok k.files.next) := by
  obtain ⟨offset, hopen⟩ := ramfsOpen_eq n hok
  refine ⟨offset, ?_⟩
  rw [openNode, hn]
  simp only [hopen]
  cases h.allocate .openFile <;> rfl

theorem Replaced.setNode (hn : k.vfs.node n = some node) (node' : Node) :
    Replaced k { k with vfs := k.vfs.setNode n fun _ => node' } t n node' := by
  refine ⟨.setNode _ _ _, fun c => ?_, fun _ => rfl, fun _ => rfl⟩
  by_cases hc : c = n
  · rw [if_pos hc, hc, Vfs.node_setNode_self, hn]
    rfl
  · rw [if_neg hc, Vfs.node_setNode_of_ne _ _ hc]

/-- Giving the open file back undoes its creation, but not the cut. -/
theorem Replaced.undo {node' : Node} {file : OpenFile} (hn : k.vfs.node n = some node) (href : 0 < node'.references)
    (hone : file.references = 1) (hobj : file.object = .node n) (e : ℤ) :
    Replaced k (cbOpenFileRelease ((withFile k n node' file).setError t e) k.files.next) t n node' := by
  have hset : Replaced k { k with vfs := k.vfs.setNode n fun _ => node' } t n node' := .setNode hn node'
  have hfile : ((withFile k n node' file).setError t e).files.get k.files.next = some file := Heap.get_alloc_self _ _
  have hrelease : cbOpenFileRelease ((withFile k n node' file).setError t e) k.files.next =
      releaseNode ({ (withFile k n node' file).setError t e with
        files := (k.files.alloc file).free k.files.next }.log (.lastClose k.files.next)) (some n) := by
    rw [cbOpenFileRelease, hfile]
    dsimp only
    rw [if_neg (by rw [hone]; decide), hobj]
    rfl
  rw [hrelease]
  have hnode : (k.vfs.setNode n fun _ => node').node n = some node' := by
    have hself := hset.nodes n
    rwa [if_pos rfl] at hself
  obtain ⟨hmounts, hback⟩ := node_release_retain hnode href
  refine ⟨hset.mounts.trans hmounts, fun c => (hback c).trans (hset.nodes c), fun f => ?_, fun d => ?_⟩
  · show ((k.files.alloc file).free k.files.next).get f = k.files.get f
    rw [Heap.get_free, Heap.get_alloc]
    by_cases hf : f = k.files.next
    · rw [if_pos hf, hf, Heap.get_next]
    · rw [if_neg hf, if_neg hf]
  · exact (calm_setTask k t (f := fun task => { task with errorCell := e }) fun task _ =>
      ⟨rfl, rfl, rfl, .inl rfl, .inl rfl, .inl rfl, rfl, rfl⟩).rest.slot t d

/-- A late refusal leaves the node cut. -/
theorem openAt_refusedLate (hn : k.vfs.node n = some node) (href : 0 < node.references)
    (hok : ¬ refusedNode node flags) (hlate : refusedLate h k t) :
    (∃ e, (openAt h k t n flags).2 = .fail e) ∧
      Replaced k (openAt h k t n flags).1 t n (cutAtOpen node flags) := by
  obtain ⟨offset, hopen⟩ := openNode_eq (h := h) hn hok
  have hpos : 0 < (cutAtOpen node flags).references := by
    have hsame : (cutAtOpen node flags).references = node.references :=
      congrArg (fun fixed => fixed.2.1) (fixed_cutAtOpen node flags)
    omega
  rw [openAt, hopen]
  by_cases halloc : h.allocate .openFile = false
  · rw [if_pos halloc]
    exact ⟨⟨_, rfl⟩, .setNode hn _⟩
  · rw [if_neg halloc]
    have hfull : ∀ file, ((withFile k n (cutAtOpen node flags) file).task t).bind freeSlot = none :=
      fun _ => hlate.resolve_left halloc
    dsimp only
    rw [fdInstall, hfull]
    exact ⟨⟨_, rfl⟩, .undo hn hpos rfl rfl _⟩

/-- Without a late refusal the call returns a descriptor. -/
theorem openAt_granted (hn : k.vfs.node n = some node) (hok : ¬ refusedNode node flags)
    (hlate : ¬ refusedLate h k t) : ¬ (openAt h k t n flags).2.failed := by
  obtain ⟨offset, hopen⟩ := openNode_eq (h := h) hn hok
  rw [refusedLate, not_or] at hlate
  rw [openAt, hopen, if_neg hlate.1]
  obtain ⟨d, hd⟩ := Option.ne_none_iff_exists'.mp hlate.2
  have hfree : ∀ file, ((withFile k n (cutAtOpen node flags) file).task t).bind freeSlot = some d := fun _ => hd
  dsimp only
  rw [fdInstall, hfree]
  show ((d.val : ℕ) : ℤ) ≠ -1
  omega

/-! ### The whole call -/

theorem apiOpen_found {path normalized : Bytes} {mode : ℕ}
    (hnorm : normalizeForTask k.vfs (k.viewOf t) path = .ok normalized)
    (hres : resolveNormalized k.vfs (k.viewOf t) normalized = .ok n) :
    apiOpen h k t path flags mode = openAt h k t n flags := by
  rw [apiOpen, cbVfsOpen, hnorm]
  dsimp only
  rw [hres]
  rfl

theorem apiOpen_made {path normalized : Bytes} {mode : ℕ} {v : Vfs}
    (hnorm : normalizeForTask k.vfs (k.viewOf t) path = .ok normalized)
    (hres : resolveNormalized k.vfs (k.viewOf t) normalized = .error .enoent) (hcreat : flags.creat = true)
    (hmade : createAt h k.vfs (k.viewOf t) normalized .regular (if mode = 0 then 0o666 else mode) = .ok (v, n)) :
    apiOpen h k t path flags mode = openAt h { k with vfs := v } t n flags := by
  rw [apiOpen, cbVfsOpen, hnorm]
  dsimp only
  rw [hres]
  dsimp only
  rw [if_pos ⟨rfl, hcreat⟩, hmade]
  rfl

/-- Every other way through the call touches nothing. -/
theorem apiOpen_otherwise {path : Bytes} {mode : ℕ}
    (hother : ∀ normalized, normalizeForTask k.vfs (k.viewOf t) path = .ok normalized →
      (∀ n, resolveNormalized k.vfs (k.viewOf t) normalized ≠ .ok n) ∧
      (resolveNormalized k.vfs (k.viewOf t) normalized = .error .enoent → flags.creat = true →
        ∀ made, createAt h k.vfs (k.viewOf t) normalized .regular (if mode = 0 then 0o666 else mode) ≠ .ok made)) :
    (apiOpen h k t path flags mode).1 = k := by
  rw [apiOpen, cbVfsOpen]
  cases hnorm : normalizeForTask k.vfs (k.viewOf t) path with
  | error e => rfl
  | ok normalized =>
    obtain ⟨hnone, hmake⟩ := hother normalized hnorm
    dsimp only
    cases hres : resolveNormalized k.vfs (k.viewOf t) normalized with
    | ok n => exact absurd hres (hnone n)
    | error e =>
      dsimp only
      by_cases hcreat : e = .enoent ∧ flags.creat = true
      · rw [if_pos hcreat]
        cases hmade : createAt h k.vfs (k.viewOf t) normalized .regular (if mode = 0 then 0o666 else mode) with
        | error e => rfl
        | ok made => exact absurd hmade (hmake (by rw [hres, hcreat.1]) hcreat.2 made)
      · rw [if_neg hcreat]

/-- The file `open` makes is new, empty and held by its directory. -/
theorem createAt_new {view : View} {ext : NodeId → ℕ} {path normalized : Bytes} {v' : Vfs} {mode : ℕ}
    (hv : Resolves k.vfs ext view) (hn : normalizeForTask k.vfs view path = .ok normalized)
    (hc : createAt h k.vfs view normalized .regular mode = .ok (v', n)) :
    k.vfs.node n = none ∧ ∃ node, v'.node n = some node ∧ node.type = .regular ∧ node.references = 1 := by
  rw [createAt] at hc
  cases hp : resolveParent k.vfs view normalized with
  | error e => simp [hp] at hc
  | ok target =>
    obtain ⟨parent, name⟩ := target
    simp only [hp] at hc
    obtain ⟨-, hname⟩ := resolveParent_rooted hv hn hp
    obtain ⟨dir, hd, hty, hfind, rfl, rfl⟩ := ramfsCreate_cases hc
    have hfree : ∀ {c x}, k.vfs.node c = some x → x.parent = some parent → x.name ≠ name :=
      fun hc hx => hv.sound.tree.links.findChild_none hd hfind hc hx
    exact ⟨Heap.get_next _, _, (nodeCreate_pushed h hd hty .regular mode hname hfree).newNode, rfl, rfl⟩

/-- A node in the tree has a reference. -/
theorem Rooted.references_pos {v : Vfs} {ext : NodeId → ℕ} (hs : Sound v ext) (hr : Rooted v n)
    (hn : v.node n = some node) : 0 < node.references := by
  obtain ⟨node', hn', -, hin⟩ := hr
  rw [hn, Option.some.injEq] at hn'
  subst hn'
  have hcount := hs.refs.count hn
  rw [anchor, if_pos hin] at hcount
  omega

/-- A node that is cut is unaltered only when it was empty. -/
theorem Replaced.unaltered_iff (hrep : Replaced k k' t n (cutAtOpen node flags)) (hn : k.vfs.node n = some node)
    (hok : ¬ refusedNode node flags) : Unaltered k k' t ↔ ¬ (cuts node flags ∧ node.size ≠ 0) := by
  rw [refusedNode, not_or] at hok
  have hself := hrep.nodes n
  rw [if_pos rfl] at hself
  constructor
  · rintro hsame ⟨⟨-, -, hcut⟩, hsize⟩
    have hsz := hsame.sizes n
    rw [hself, hn, cutAtOpen, if_pos hcut, Option.map_some, Option.map_some, Option.some.injEq] at hsz
    exact hsize hsz.symm
  · intro hno
    have hkeep : cutAtOpen node flags = node := by
      by_cases hcut : cuts node flags
      · have hzero : node.size = 0 := not_not.mp fun hne => hno ⟨hcut, hne⟩
        rw [cutAtOpen, if_pos ⟨hcut.2.2.1, hcut.2.2.2⟩, ← hzero]
      · exact cutAtOpen_of_not_cuts hok.1 hok.2 hcut
    have hnodes : ∀ c, k'.vfs.node c = k.vfs.node c := by
      intro c
      rw [hrep.nodes, hkeep]
      by_cases hc : c = n
      · rw [if_pos hc, hc, hn]
      · rw [if_neg hc]
    refine ⟨hrep.mounts, fun c => ?_, fun c => ?_, fun c => ?_, fun f => ?_, hrep.slots⟩
    · rw [hnodes]
    · rw [hnodes]
    · rw [hnodes]
    · rw [hrep.files]

/-- A node that was not there before is an alteration. -/
theorem not_unaltered_of_new (hfree : k.vfs.node n = none) (hn : k'.vfs.node n = some node) :
    ¬ Unaltered k k' t := by
  intro hsame
  have hlive := hsame.tree.live (n := n)
  rw [hfree, hn] at hlive
  cases hlive

/-- **Opens that fail.**  An `open` that returns `-1` leaves the tree, the contents, the offsets and the
descriptors as they were, if and only if it is not refused late after it has made a file or cut one. -/
theorem open_failure_unaltered (hr : Reachable k) (hc : k.current = some t) (h : Host) (path : Bytes)
    (flags : OpenFlags) (mode : ℕ) :
    ((apiOpen h k t path flags mode).2.failed → Unaltered k (apiOpen h k t path flags mode).1 t) ↔
      ¬ (refusedLate h k t ∧ altersFirst h k t path flags mode) := by
  obtain ⟨l, hb⟩ := hr.base
  have hv := hb.resolves (Unparked.of_current hb hc)
  by_cases hfound : ∃ normalized n, normalizeForTask k.vfs (k.viewOf t) path = .ok normalized ∧
      resolveNormalized k.vfs (k.viewOf t) normalized = .ok n
  · -- the path leads to a node
    obtain ⟨normalized, n, hnorm, hres⟩ := hfound
    have hroot := resolveNormalized_rooted hv hres
    obtain ⟨node, hn, -⟩ := id hroot
    have hfirst : altersFirst h k t path flags mode ↔ cuts node flags ∧ node.size ≠ 0 := by
      constructor
      · rintro ⟨normalized', hnorm', hcase⟩
        rw [hnorm, Except.ok.injEq] at hnorm'
        subst hnorm'
        rcases hcase with ⟨n', node', hres', hn', hcut⟩ | ⟨hres', -⟩
        · rw [hres, Except.ok.injEq] at hres'
          subst hres'
          rw [hn, Option.some.injEq] at hn'
          subst hn'
          exact hcut
        · rw [hres] at hres'
          cases hres'
      · exact fun hcut => ⟨normalized, hnorm, .inl ⟨n, node, hres, hn, hcut⟩⟩
    rw [apiOpen_found hnorm hres, hfirst]
    by_cases hok : refusedNode node flags
    · obtain ⟨e, heq⟩ := openAt_refusedNode (h := h) (t := t) hn hok
      rw [heq]
      refine ⟨fun _ => ?_, fun _ _ => .refl k t⟩
      rintro ⟨-, ⟨hd, hx, -⟩, -⟩
      rcases hok with hd' | hx'
      · exact hd hd'
      · exact hx hx'.1
    · by_cases hlate : refusedLate h k t
      · obtain ⟨⟨e, hfail⟩, hrep⟩ := openAt_refusedLate hn (hroot.references_pos hv.sound hn) hok hlate
        rw [hfail, hrep.unaltered_iff hn hok]
        exact ⟨fun hgo hboth => hgo rfl hboth.2, fun hno _ hcut => hno ⟨hlate, hcut⟩⟩
      · have hgrant := openAt_granted hn hok hlate
        exact ⟨fun _ hboth => hlate hboth.1, fun _ hfail => absurd hfail hgrant⟩
  · by_cases hmade : ∃ normalized v n, normalizeForTask k.vfs (k.viewOf t) path = .ok normalized ∧
        resolveNormalized k.vfs (k.viewOf t) normalized = .error .enoent ∧ flags.creat = true ∧
        createAt h k.vfs (k.viewOf t) normalized .regular (if mode = 0 then 0o666 else mode) = .ok (v, n)
    · -- the call makes the file
      obtain ⟨normalized, v, n, hnorm, hres, hcreat, hmade⟩ := hmade
      obtain ⟨hfree, node, hn, hty, href⟩ := createAt_new hv hnorm hmade
      have hok : ¬ refusedNode node flags := by
        rintro (hd | ⟨hx, -⟩)
        · rw [hty] at hd
          cases hd
        · rw [hty] at hx
          cases hx
      have hn' : ({ k with vfs := v } : Kernel).vfs.node n = some node := hn
      rw [apiOpen_made hnorm hres hcreat hmade]
      by_cases hlate : refusedLate h k t
      · have hlate' : refusedLate h { k with vfs := v } t := hlate
        obtain ⟨⟨e, hfail⟩, hrep⟩ := openAt_refusedLate hn' (by omega) hok hlate'
        have hself := hrep.nodes n
        rw [if_pos rfl] at hself
        rw [hfail]
        refine ⟨fun hgo => absurd (hgo rfl) (not_unaltered_of_new hfree hself), fun hno => ?_⟩
        exact absurd ⟨hlate, normalized, hnorm, .inr ⟨hres, hcreat, _, hmade⟩⟩ hno
      · have hlate' : ¬ refusedLate h { k with vfs := v } t := hlate
        have hgrant := openAt_granted hn' hok hlate'
        exact ⟨fun _ hboth => hlate hboth.1, fun _ hfail => absurd hfail hgrant⟩
    · -- the call fails before it touches anything
      have hsame : (apiOpen h k t path flags mode).1 = k := by
        refine apiOpen_otherwise fun normalized hnorm => ⟨fun n hres => ?_, fun hres hcreat made hmk => ?_⟩
        · exact hfound ⟨normalized, n, hnorm, hres⟩
        · exact hmade ⟨normalized, made.1, made.2, hnorm, hres, hcreat, hmk⟩
      rw [hsame]
      refine ⟨fun _ => ?_, fun _ _ => .refl k t⟩
      rintro ⟨-, normalized, hnorm, ⟨n, node, hres, -⟩ | ⟨hres, hcreat, made, hmk⟩⟩
      · exact hfound ⟨normalized, n, hnorm, hres⟩
      · exact hmade ⟨normalized, made.1, made.2, hnorm, hres, hcreat, hmk⟩

/-- The path `/f` and the flags to make and to cut it. -/
def fPath : Bytes := [slash, 102]
def creatFlags : OpenFlags := ⟨.wronly, false, true, false⟩
def truncFlags : OpenFlags := ⟨.wronly, false, false, true⟩

/-- The shell has just started; opening a missing file without `O_CREAT` changes nothing. -/
theorem open_failure_unaltered_missing :
    (apiOpen .calm (stateAfter shellStart) 0 fPath truncFlags 0).2.failed ∧
      Unaltered (stateAfter shellStart) (apiOpen .calm (stateAfter shellStart) 0 fPath truncFlags 0).1 0 := by
  have hout : (apiOpen .calm (stateAfter shellStart) 0 fPath truncFlags 0).2 = .fail .enoent := by decide +kernel
  have hfail : (apiOpen .calm (stateAfter shellStart) 0 fPath truncFlags 0).2.failed := by
    rw [hout]
    rfl
  refine ⟨hfail, (open_failure_unaltered (reachable_stateAfter _) (by decide +kernel) .calm fPath truncFlags 0).mpr ?_
    hfail⟩
  rintro ⟨hlate | hlate, -⟩
  · exact absurd hlate (by decide)
  · exact absurd hlate (by decide +kernel)

/-- The shell has written a byte into `/f` and filled its descriptor table. -/
def fullTable : Kernel :=
  stateAfter (shellStart ++ calls ([.openPath fPath creatFlags 0, .write 3 [120]] ++ List.replicate 60 (.dup 0)))

/-- With a full table, `open` with `O_TRUNC` fails with `EMFILE` and the byte is lost. -/
theorem open_failure_loses_contents :
    Reachable fullTable ∧ fullTable.current = some 0 ∧
      (apiOpen .calm fullTable 0 fPath truncFlags 0).2 = .fail .emfile ∧
      ¬ Unaltered fullTable (apiOpen .calm fullTable 0 fPath truncFlags 0).1 0 := by
  refine ⟨reachable_stateAfter _, by decide +kernel, by decide +kernel, fun hsame => ?_⟩
  have hbefore : (fullTable.vfs.node 6).map Node.size = some 1 := by decide +kernel
  have hafter : ((apiOpen .calm fullTable 0 fPath truncFlags 0).1.vfs.node 6).map Node.size = some 0 := by
    decide +kernel
  have hsize := hsame.sizes 6
  rw [hbefore, hafter] at hsize
  cases hsize

end CannedBsd
