import CannedBsd.Vfs.Resolve

/-!
# Walking the tree

Path resolution goes down from the root by names, and `cwd_string` goes up from the working directory
by parent pointers. Both cross mounts, in opposite directions. Here the two are shown to be inverse to
each other, and the text edits of `cb_test_path_normalize` to agree with a walk that takes `..` as a
step to the parent.

* `cwdString_of_resolve`: the text of a node that a path leads to is that path, when it fits.
* `lexical_eq_physical`: editing the text of a path and resolving it leads to the node the physical walk
  reaches.
-/

namespace CannedBsd

open CannedBsd.Lib

/-- The tree is well formed, it has the kernel root, and no mount is attached twice. -/
structure Mounted (v : Vfs) : Prop where
  tree : Tree v
  root : HasRoot v
  once : (attached v).Nodup

variable {v v' : Vfs} {n d x : NodeId} {cs : List Bytes} {c : Bytes}

/-! ### Crossing mounts both ways -/

namespace Mounted

theorem mount_unique (h : Mounted v) {m m' : MountId} {r : NodeId} (hm : v.rootOf m = some r)
    (hm' : v.rootOf m' = some r) : m = m' := by
  obtain ⟨node, hn, -, -, hmount⟩ := h.tree.roots hm
  obtain ⟨node', hn', -, -, hmount'⟩ := h.tree.roots hm'
  rw [hn, Option.some.injEq] at hn'
  subst hn'
  rw [← hmount, hmount']

theorem entry_unique (h : Mounted v) {e e' : MountEntry} (he : e ∈ v.table) (he' : e' ∈ v.table)
    (heq : e.mount = e'.mount) : e = e' :=
  List.inj_on_of_nodup_map (List.nodup_cons.mp h.once).2 he he' heq

/-- From where a lookup arrives after crossing down, crossing up leads back to the node found. -/
theorem crossUp_crossDown (h : Mounted v) (hx : v.parentOf x = some d) (hc : crossDown v x = some n) :
    crossUp v n = x := by
  rw [crossDown] at hc
  rw [crossUp]
  cases hf : v.table.find? fun e => e.mountPoint = x with
  | some e =>
    simp only [hf] at hc
    have he := List.mem_of_find?_eq_some hf
    have hpoint : e.mountPoint = x := of_decide_eq_true (List.find?_some (p := fun e : MountEntry => e.mountPoint = x) hf)
    cases hf' : v.table.find? fun e => v.rootOf e.mount = some n with
    | none => exact absurd (decide_eq_true hc) (List.find?_eq_none.mp hf' e he)
    | some e' =>
      have hroot : v.rootOf e'.mount = some n :=
        of_decide_eq_true (List.find?_some (p := fun e : MountEntry => v.rootOf e.mount = some n) hf')
      have heq := h.entry_unique he (List.mem_of_find?_eq_some hf') (h.mount_unique hc hroot)
      dsimp only
      rw [← heq, hpoint]
  | none =>
    simp only [hf, Option.some.injEq] at hc
    subst hc
    cases hf' : v.table.find? fun e => v.rootOf e.mount = some x with
    | none => rfl
    | some e' =>
      have hroot : v.rootOf e'.mount = some x :=
        of_decide_eq_true (List.find?_some (p := fun e : MountEntry => v.rootOf e.mount = some x) hf')
      rw [h.tree.parent_of_root hroot] at hx
      cases hx

theorem root_loose (h : Mounted v) : v.parentOf v.vfsRoot = none := h.tree.parent_of_root h.root

/-- A lookup never leads back to the kernel root. -/
theorem crossDown_ne_root (h : Mounted v) (hx : v.parentOf x = some d) (hc : crossDown v x = some n) :
    n ≠ v.vfsRoot := by
  rintro rfl
  rw [crossDown] at hc
  cases hf : v.table.find? fun e => e.mountPoint = x with
  | some e =>
    simp only [hf] at hc
    refine (List.nodup_cons.mp h.once).1 ?_
    rw [← h.mount_unique hc h.root]
    exact List.mem_map_of_mem (List.mem_of_find?_eq_some hf)
  | none =>
    simp only [hf, Option.some.injEq] at hc
    rw [hc, h.root_loose] at hx
    cases hx

end Mounted

/-! ### Resolution from the end -/

theorem resolveFrom_append (v : Vfs) (n : NodeId) (cs cs' : List Bytes) :
    resolveFrom v n (cs ++ cs') =
      match resolveFrom v n cs with
      | .error e => .error e
      | .ok d => resolveFrom v d cs' := by
  induction cs generalizing n with
  | nil => rfl
  | cons c cs ih =>
    rw [List.cons_append, resolveFrom, resolveFrom]
    cases ramfsLookup v n c with
    | error e => rfl
    | ok next =>
      dsimp only
      cases crossDown v next with
      | none => rfl
      | some next' => exact ih next'

/-- The last component is looked up in the directory the others lead to. -/
theorem resolveFrom_snoc {root : NodeId} : resolveFrom v root (cs ++ [c]) = .ok n ↔
    ∃ d x, resolveFrom v root cs = .ok d ∧ ramfsLookup v d c = .ok x ∧ crossDown v x = some n := by
  rw [resolveFrom_append]
  cases hd : resolveFrom v root cs with
  | error e => simp
  | ok d =>
    dsimp only
    rw [resolveFrom]
    cases hx : ramfsLookup v d c with
    | error e => simp [hx]
    | ok x =>
      dsimp only
      cases hn : crossDown v x with
      | none => simp [hx, hn]
      | some n' => simp [resolveFrom, hx, hn]

/-- Components that can be resolved are names of nodes. -/
theorem goodName_of_resolveFrom (hl : Links v) (h : resolveFrom v n cs = .ok d) : ∀ c ∈ cs, goodName c := by
  induction cs generalizing n with
  | nil => simp
  | cons c cs ih =>
    rw [resolveFrom] at h
    cases hx : ramfsLookup v n c with
    | error e => simp [hx] at h
    | ok x =>
      simp only [hx] at h
      obtain ⟨dir, node, -, -, hn, hp, rfl⟩ := ramfsLookup_ok hl hx
      cases hc : crossDown v x with
      | none => simp [hc] at h
      | some x' =>
        simp only [hc] at h
        intro y hy
        rcases List.mem_cons.mp hy with rfl | hy
        · exact hl.name hn hp
        · exact ih h y hy

/-- Linked nodes keep their place and their name. -/
def KeepsPlaces (v v' : Vfs) : Prop :=
  ∀ x node d, v.node x = some node → node.parent = some d →
    ∃ node', v'.node x = some node' ∧ node'.parent = some d ∧ node'.name = node.name

theorem KeepsPlaces.lookup (hk : KeepsPlaces v v') (hl : Links v) (hl' : Links v')
    (h : ramfsLookup v d c = .ok x) : ramfsLookup v' d c = .ok x := by
  obtain ⟨dir, node, -, -, hx, hp, hname⟩ := ramfsLookup_ok hl h
  obtain ⟨node', hx', hp', hname'⟩ := hk x node d hx hp
  have hparent : v'.parentOf x = some d := by rw [Vfs.parentOf_of_node hx', hp']
  obtain ⟨dir', hd', hty⟩ := hl'.parent hparent
  rw [ramfsLookup, hd']
  dsimp only
  rw [if_neg (not_not.mpr hty)]
  cases hf : findChild v' d c with
  | none => exact absurd (hname'.trans hname) (hl'.findChild_none hd' hf hx' hp')
  | some y =>
    obtain ⟨ynode, hy, hyp, hyname⟩ := hl'.findChild_some hd' hf
    have heq := hl'.unique hx' hy hp' hyp (by rw [hname', hname, hyname])
    rw [heq]

theorem KeepsPlaces.resolveFrom (hk : KeepsPlaces v v') (hs : SameMounts v v') (hl : Links v) (hl' : Links v')
    (h : resolveFrom v n cs = .ok d) : resolveFrom v' n cs = .ok d := by
  have hcross : ∀ x, crossDown v' x = crossDown v x := by
    intro x
    rw [crossDown, crossDown, hs.table, hs.rootOf]
  induction cs generalizing n with
  | nil => exact h
  | cons c cs ih =>
    rw [CannedBsd.resolveFrom] at h ⊢
    cases hx : ramfsLookup v n c with
    | error e => simp [hx] at h
    | ok x =>
      simp only [hx] at h
      rw [hk.lookup hl hl' hx]
      dsimp only
      rw [hcross]
      cases hc : crossDown v x with
      | none => simp [hc] at h
      | some x' =>
        simp only [hc] at h
        exact ih h

theorem keepsPlaces_retain (v : Vfs) (n : NodeId) : KeepsPlaces v (ramfsNodeRetain v n) := by
  intro x node d hx hp
  rw [ramfsNodeRetain, Vfs.node_setNode]
  split
  · rw [hx]
    exact ⟨_, rfl, hp, rfl⟩
  · exact ⟨node, hx, hp, rfl⟩

/-- Only a node that is not linked is freed. -/
theorem keepsPlaces_release {ext : NodeId → ℕ} (h : Sound v ext) (hext : 0 < ext n) :
    KeepsPlaces v (ramfsNodeRelease v n) ∧ SameMounts v (ramfsNodeRelease v n) := by
  obtain ⟨node, hn, ⟨-, heq⟩ | ⟨hone, hs, hnodes⟩⟩ := h.release_cases hext
  · rw [heq]
    refine ⟨?_, .setNode v n _⟩
    intro x node d hx hp
    rw [Vfs.node_setNode]
    split
    · rw [hx]
      exact ⟨_, rfl, hp, rfl⟩
    · exact ⟨node, hx, hp, rfl⟩
  · refine ⟨?_, hs⟩
    intro x xnode d hx hp
    obtain ⟨hnone, -⟩ := h.last hn hext hone
    rw [hnodes, if_neg]
    · exact ⟨xnode, hx, hp, rfl⟩
    · rintro rfl
      rw [hn, Option.some.injEq] at hx
      subst hx
      rw [hnone] at hp
      cases hp

/-! ### The working directory as a text -/

/-- The names of nodes. -/
def Named (v : Vfs) (n : NodeId) (name : Bytes) : Prop := ∃ node, v.node n = some node ∧ node.name = name

/-- The upward walk from a node finds the nodes a path to it goes through. -/
theorem cwdParts_of_resolve (h : Mounted v) {room : ℕ} (parts : List NodeId)
    (hres : resolveFrom v v.vfsRoot cs = .ok n) (hroom : cs.length ≤ room) :
    ∃ ps, cwdParts v (some v.vfsRoot) room (some n) parts = .ok (ps ++ parts) ∧ List.Forall₂ (Named v) ps cs := by
  induction cs using List.reverseRecOn generalizing n room parts with
  | nil =>
    cases hres
    refine ⟨[], ?_, .nil⟩
    cases room with
    | zero => exact if_pos rfl
    | succ room => exact if_pos rfl
  | append_singleton cs c ih =>
    obtain ⟨d, x, hd, hx, hc⟩ := resolveFrom_snoc.mp hres
    obtain ⟨dir, node, -, -, hnode, hp, hname⟩ := ramfsLookup_ok h.tree.links hx
    have hparent : v.parentOf x = some d := by rw [Vfs.parentOf_of_node hnode, hp]
    cases room with
    | zero => simp at hroom
    | succ room =>
      rw [List.length_append, List.length_singleton] at hroom
      obtain ⟨ps, hps, hnames⟩ := ih (x :: parts) hd (by omega : cs.length ≤ room)
      refine ⟨ps ++ [x], ?_, List.rel_append hnames (.cons ⟨node, hnode, hname⟩ .nil)⟩
      have hne : (some n : Option NodeId) ≠ some v.vfsRoot := by
        simpa using h.crossDown_ne_root hparent hc
      have hne' : (some x : Option NodeId) ≠ some v.vfsRoot := by
        intro heq
        rw [Option.some.inj heq, h.root_loose] at hparent
        cases hparent
      rw [cwdParts, if_neg hne]
      dsimp only
      rw [h.crossUp_crossDown hparent hc, if_neg hne', hparent, hps, List.append_assoc]
      rfl

/-- The names with slashes between them. -/
def interleaved : List Bytes → Bytes
  | [] => []
  | [c] => c
  | c :: cs => c ++ [slash] ++ interleaved cs

theorem interleaved_cons (c c' : Bytes) (cs : List Bytes) :
    interleaved (c :: c' :: cs) = c ++ [slash] ++ interleaved (c' :: cs) := by
  rw [interleaved]
  simp

theorem render_eq_interleaved (cs : List Bytes) : render cs = [slash] ++ interleaved cs := by
  have hjoin : ∀ c cs, joined (c :: cs) = [slash] ++ interleaved (c :: cs) := by
    intro c cs
    induction cs generalizing c with
    | nil => simp [joined, interleaved]
    | cons c' cs ih =>
      have hcons : joined (c :: c' :: cs) = slash :: c ++ joined (c' :: cs) := by simp [joined]
      rw [hcons, ih, interleaved_cons]
      simp
  cases cs with
  | nil => rfl
  | cons c cs => exact (if_neg (by simp)).trans (hjoin c cs)

/-- The printing loop fails exactly when the text does not fit. -/
theorem renderParts_eq {size : ℕ} {ps : List NodeId} (hnames : List.Forall₂ (Named v) ps cs) (buffer : Bytes)
    (hfit : buffer.length + 1 ≤ size) :
    renderParts v size buffer ps =
      if buffer.length + (interleaved cs).length < size then .ok (buffer ++ interleaved cs)
      else .error .enametoolong := by
  induction hnames generalizing buffer with
  | nil =>
    rw [renderParts, interleaved, if_pos (by simpa using hfit), List.append_nil]
  | @cons p c ps cs hname hrest ih =>
    obtain ⟨node, hn, rfl⟩ := hname
    rw [renderParts, hn]
    dsimp only
    cases hrest with
    | nil =>
      rw [if_pos rfl, interleaved, List.length_nil, Nat.add_zero, List.append_nil]
      by_cases hlt : buffer.length + node.name.length < size
      · rw [if_neg (by omega), if_pos hlt, renderParts]
      · rw [if_pos (by omega), if_neg hlt]
    | @cons p' c' ps' cs' hname' hrest' =>
      have hsep : (if p' :: ps' = [] then ([] : Bytes) else [slash]) = [slash] := if_neg (by simp)
      rw [hsep, interleaved_cons, List.length_singleton]
      by_cases hlt : buffer.length + node.name.length + 1 + 1 ≤ size
      · rw [if_neg (by omega), ih _ (by simpa [Nat.add_assoc] using hlt)]
        simp only [List.length_append, List.length_singleton, List.append_assoc, Nat.add_assoc]
      · rw [if_pos (by omega), if_neg]
        simp only [List.length_append, List.length_singleton]
        omega

/-- **Upward.**  The text of a node that a path leads to is that path, when it fits. -/
theorem cwdString_of_resolve (h : Mounted v) {view : View} (hroot : view.root = some v.vfsRoot)
    (hcwd : view.cwd = some n) (hres : resolveFrom v v.vfsRoot cs = .ok n) (hdepth : cs.length ≤ cbPathMax / 2)
    (size : ℕ) :
    cwdString v view size = if (render cs).length < size then .ok (render cs) else .error .enametoolong := by
  obtain ⟨ps, hps, hnames⟩ := cwdParts_of_resolve h [] hres hdepth
  rw [cwdString, hroot, hcwd, hps, List.append_nil]
  dsimp only
  rw [render_eq_interleaved, List.length_append, List.length_singleton]
  by_cases hsize : size < 2
  · rw [if_pos hsize, if_neg (by omega)]
  · rw [if_neg hsize, renderParts_eq hnames [slash] (Nat.le_of_not_lt hsize)]
    rfl

/-! ### The bounds of normalization -/

/-- The output fits, and it has no more components than `cwd_string` can print. -/
structure Normal.Bounded (size : ℕ) (s : Normal) : Prop where
  depth : s.starts.length ≤ cbPathMax / 2
  fits : s.output.length < size

theorem addComponent_bounded {size : ℕ} {s s' : Normal} (hs : s.Bounded size)
    (h : addComponent size s c = .ok s') : s'.Bounded size := by
  rw [addComponent] at h
  split at h
  · cases h
    exact hs
  split at h
  · split at h
    · cases h
      exact hs
    · rename_i start starts hstarts
      cases h
      have hdepth := hs.depth
      rw [hstarts, List.length_cons] at hdepth
      refine ⟨by dsimp only; omega, ?_⟩
      exact lt_of_le_of_lt (List.length_take_le' _ _) hs.fits
  obtain ⟨hroom, h⟩ := ok_of_guard h
  obtain ⟨-, h⟩ := ok_of_guard h
  obtain ⟨hfits, h⟩ := ok_of_guard h
  cases h
  have hdepth := hs.depth
  refine ⟨?_, ?_⟩
  · rw [List.length_cons]
    omega
  · rw [List.length_append]
    omega

theorem addComponents_bounded {size : ℕ} {s s' : Normal} (hs : s.Bounded size)
    (h : addComponents size s cs = .ok s') : s'.Bounded size := by
  induction cs generalizing s with
  | nil =>
    cases h
    exact hs
  | cons c cs ih =>
    rw [addComponents] at h
    cases ha : addComponent size s c with
    | error e => simp [ha] at h
    | ok s₁ =>
      simp only [ha] at h
      exact ih (addComponent_bounded hs ha) h

/-- A normalized path can be printed again. -/
theorem normalize_bounded {cwd path out : Bytes} {size : ℕ} (h : cbTestPathNormalize cwd path size = .ok out) :
    (keptComponents cwd path).length ≤ cbPathMax / 2 ∧ (render (keptComponents cwd path)).length < size := by
  rw [cbTestPathNormalize] at h
  split at h
  · cases h
  rename_i hsize
  split at h
  · cases h
  split at h
  · cases h
  · rename_i s hs
    have hbound : s.Bounded size := by
      refine addComponents_bounded ⟨Nat.zero_le _, ?_⟩ hs
      rw [List.length_singleton]
      omega
    have hstate := addComponents_state (List.forall_mem_nil _) (fun c hc => (components_mem hc).1) hs
    subst hstate
    refine ⟨?_, hbound.fits⟩
    have hdepth := hbound.depth
    rwa [length_startsOf] at hdepth

/-! ### How far the buffer is written -/

/-- The end of what the printing loop writes into its buffer, with `used` bytes in it so far: the
final `NUL` when it succeeds, and the last part that fitted when it does not. -/
def renderExtent (v : Vfs) (size : ℕ) : ℕ → List NodeId → ℕ
  | used, [] => used + 1
  | used, p :: rest =>
    match v.node p with
    | none => used
    | some node =>
      let separator := if rest = [] then 0 else 1
      if size < used + node.name.length + separator + 1 then used
      else renderExtent v size (used + node.name.length + separator) rest

/-- The number of bytes of its buffer `cwd_string` may have written to. -/
def cwdExtent (v : Vfs) (view : View) (size : ℕ) : ℕ :=
  match cwdParts v view.root (cbPathMax / 2) view.cwd [] with
  | .error _ => 0
  | .ok parts => if size < 2 then 0 else renderExtent v size 1 parts

theorem renderExtent_le {size used : ℕ} (ps : List NodeId) (h : used + 1 ≤ size) :
    renderExtent v size used ps ≤ size := by
  induction ps generalizing used with
  | nil => exact h
  | cons p rest ih =>
    rw [renderExtent]
    split
    · omega
    dsimp only
    generalize (if rest = [] then 0 else 1) = separator
    split
    · omega
    · exact ih (by omega)

theorem cwdExtent_le (v : Vfs) (view : View) (size : ℕ) : cwdExtent v view size ≤ size := by
  rw [cwdExtent]
  split
  · exact Nat.zero_le _
  split
  · exact Nat.zero_le _
  · exact renderExtent_le _ (by omega)

/-! ### The physical walk -/

/-- All pieces between slashes, empty ones too. -/
def piecesFrom : Bytes → Bytes → List Bytes
  | current, [] => [current]
  | current, b :: rest =>
    if b = slash then current :: piecesFrom [] rest else piecesFrom (current ++ [b]) rest

def pieces (text : Bytes) : List Bytes := piecesFrom [] text

/-- One step of a walk over the tree: an empty piece and `.` stay on a directory, `..` goes to the
parent and out of a mounted file system, and a name goes down and into one. -/
def physicalStep (v : Vfs) (root n : NodeId) (c : Bytes) : Option NodeId :=
  if c = [] ∨ c = [dot] then
    if (v.node n).any fun node => node.type = .directory then some n else none
  else if c = [dot, dot] then
    if n = root then some n else v.parentOf (crossUp v n)
  else
    match ramfsLookup v n c with
    | .error _ => none
    | .ok x => crossDown v x

def walkFrom (v : Vfs) (root : NodeId) : NodeId → List Bytes → Option NodeId
  | n, [] => some n
  | n, c :: cs => (physicalStep v root n c).bind fun next => walkFrom v root next cs

/-- The walk of a path from the root or from the working directory. -/
def physicalWalk (v : Vfs) (view : View) (path : Bytes) : Option NodeId :=
  match view.root, view.cwd with
  | some root, some cwd => walkFrom v root (if path.head? = some slash then root else cwd) (pieces path)
  | _, _ => none

theorem componentsFrom_eq_pieces (current text : Bytes) :
    componentsFrom current text = (piecesFrom current text).filter (· ≠ []) := by
  induction text generalizing current with
  | nil =>
    rw [componentsFrom, piecesFrom]
    by_cases hcur : current = []
    · simp [hcur]
    · simp [hcur]
  | cons b text ih =>
    rw [componentsFrom, piecesFrom]
    by_cases hb : b = slash
    · rw [if_pos hb, if_pos hb, ih []]
      by_cases hcur : current = []
      · simp [hcur]
      · simp [hcur]
    · rw [if_neg hb, if_neg hb, ih]

theorem components_slash_append (front back : Bytes) :
    components (front ++ slash :: back) = components front ++ components back := by
  have hfrom : ∀ current, componentsFrom current (front ++ slash :: back) =
      componentsFrom current front ++ components back := by
    induction front with
    | nil =>
      intro current
      simp only [List.nil_append, componentsFrom, if_true]
      split
      · rfl
      · rfl
    | cons b front ih =>
      intro current
      rw [List.cons_append, componentsFrom, componentsFrom, ih, ih]
      split
      · split
        · rfl
        · rfl
      · rfl
  exact hfrom []

/-- Empty pieces do not move the walk. -/
theorem walkFrom_filter {root m : NodeId} {ps : List Bytes} (h : walkFrom v root n ps = some m) :
    walkFrom v root n (ps.filter (· ≠ [])) = some m := by
  induction ps generalizing n with
  | nil => exact h
  | cons c ps ih =>
    rw [walkFrom, Option.bind_eq_some_iff] at h
    obtain ⟨next, hstep, h⟩ := h
    by_cases hc : c = []
    · rw [physicalStep, if_pos (.inl hc)] at hstep
      split at hstep
      · cases hstep
        rw [List.filter_cons_of_neg (by simpa using hc)]
        exact ih h
      · cases hstep
    · rw [List.filter_cons_of_pos (by simpa using hc), walkFrom, hstep, Option.bind_some]
      exact ih h

/-- Keeping a component and walking it lead to the same node. -/
theorem resolve_keep (h : Mounted v) {kept : List Bytes} (hne : c ≠ [])
    (hres : resolveFrom v v.vfsRoot kept = .ok n) (hstep : physicalStep v v.vfsRoot n c = some x) :
    resolveFrom v v.vfsRoot (keep kept c) = .ok x := by
  rw [physicalStep] at hstep
  rw [keep]
  by_cases hdot : c = [dot]
  · rw [if_pos (.inr hdot)] at hstep
    rw [if_pos hdot]
    split at hstep
    · cases hstep
      exact hres
    · cases hstep
  rw [if_neg (by simp [hne, hdot])] at hstep
  rw [if_neg hdot]
  by_cases hup : c = [dot, dot]
  · rw [if_pos hup] at hstep
    rw [if_pos hup]
    cases kept using List.reverseRecOn with
    | nil =>
      cases hres
      rw [if_pos rfl] at hstep
      cases hstep
      rfl
    | append_singleton kept last =>
      obtain ⟨d, y, hd, hy, hcross⟩ := resolveFrom_snoc.mp hres
      obtain ⟨dir, node, -, -, hnode, hp, -⟩ := ramfsLookup_ok h.tree.links hy
      have hparent : v.parentOf y = some d := by rw [Vfs.parentOf_of_node hnode, hp]
      rw [if_neg (h.crossDown_ne_root hparent hcross), h.crossUp_crossDown hparent hcross, hparent] at hstep
      cases hstep
      rwa [List.dropLast_concat]
  · rw [if_neg hup] at hstep
    rw [if_neg hup]
    cases hlook : ramfsLookup v n c with
    | error e => simp [hlook] at hstep
    | ok y =>
      simp only [hlook] at hstep
      exact resolveFrom_snoc.mpr ⟨n, y, hres, hlook, hstep⟩

theorem resolve_foldl_keep (h : Mounted v) {kept : List Bytes} {m : NodeId} (hcs : ∀ c ∈ cs, c ≠ [])
    (hres : resolveFrom v v.vfsRoot kept = .ok n) (hwalk : walkFrom v v.vfsRoot n cs = some m) :
    resolveFrom v v.vfsRoot (cs.foldl keep kept) = .ok m := by
  induction cs generalizing n kept with
  | nil =>
    cases hwalk
    exact hres
  | cons c cs ih =>
    rw [walkFrom, Option.bind_eq_some_iff] at hwalk
    obtain ⟨next, hstep, hwalk⟩ := hwalk
    exact ih (fun x hx => hcs x (by simp [hx])) (resolve_keep h (hcs c (by simp)) hres hstep) hwalk

/-- The kept components of a relative path start from those of the working directory. -/
theorem keptComponents_eq {cwd path : Bytes} (hcwd : ∀ c ∈ components cwd, goodName c) :
    keptComponents cwd path =
      (components path).foldl keep (if path.head? = some slash then [] else components cwd) := by
  rw [keptComponents, absoluteInput]
  split
  · rfl
  have hsplit : components (cwd ++ (if cwd = [slash] then [] else [slash]) ++ path) =
      components cwd ++ components path := by
    split
    · rename_i hroot
      rw [hroot, List.append_nil, List.singleton_append]
      exact components_slash_append [] path
    · rw [List.append_assoc, List.singleton_append]
      exact components_slash_append cwd path
  rw [hsplit, List.foldl_append, foldl_keep_good hcwd, List.nil_append]

/-- **Lexical resolution.**  When the text of the working directory leads to it, editing the text of a
path and resolving it leads to the node the physical walk reaches. -/
theorem lexical_eq_physical (h : Mounted v) {view : View} {cwd path text : Bytes} {n m : NodeId}
    (hroot : view.root = some v.vfsRoot) (hcwd : view.cwd = some n)
    (hself : resolveNormalized v view cwd = .ok n) (hwalk : physicalWalk v view path = some m)
    (hnorm : cbTestPathNormalize cwd path cbPathMax = .ok text) : resolveNormalized v view text = .ok m := by
  rw [resolveNormalized, hroot] at hself
  rw [physicalWalk, hroot, hcwd] at hwalk
  have hgood := goodName_of_resolveFrom h.tree.links hself
  rw [normalize_eq_render hnorm, resolveNormalized_render v hroot (keptComponents_good cwd path),
    keptComponents_eq hgood]
  have hcomp : components path = (pieces path).filter (· ≠ []) := componentsFrom_eq_pieces [] path
  rw [hcomp]
  refine resolve_foldl_keep (n := if path.head? = some slash then v.vfsRoot else n) h ?_ ?_ (walkFrom_filter hwalk)
  · intro c hc
    simpa using (List.mem_filter.mp hc).2
  · split
    · rfl
    · exact hself

end CannedBsd
