import CannedBsd.Lib.Forest
import CannedBsd.Vfs.Moves

/-!
# The end of the file system

`cb_vfs_destroy` gives back the references of the mount table, then those of the mounts to their roots.
The last reference to a root takes the whole tree down. The functions here are those of `src/ramfs.c`
and `src/vfs.c` once more, with a check at every node they touch: the result is `none` when a node has
been freed before.

A node outlives the file system when a pointer to it, or to a directory above it, was never given back.

* `nodeRelease_eq`: where the checks pass, a release is the one of the model.
* `nodeRelease_cleared`: giving back the reference of a root frees what is below it, down to the stray
  pointers.
* `cbVfsDestroy_demolished`: `cb_vfs_destroy` touches no freed node, and leaves exactly what is at or below a
  stray pointer.
-/

namespace CannedBsd

open CannedBsd.Lib

namespace Demolition

/-- The loop of `node_destroy` over the children. -/
def releaseChildren (release : Vfs → NodeId → Option Vfs) : ℕ → Vfs → Option NodeId → Option Vfs
  | _, v, none => some v
  | 0, _, some _ => none
  | fuel + 1, v, some child =>
    match v.node child with
    | none => none
    | some x =>
      (release (v.setNode child fun node => { node with parent := none, nextSibling := none }) child).bind
        fun v => releaseChildren release fuel v x.nextSibling

/-- `ramfs_node_release` and `node_destroy`. -/
def nodeRelease : ℕ → Vfs → NodeId → Option Vfs
  | 0, _, _ => none
  | fuel + 1, v, n =>
    match v.node n with
    | none => none
    | some node =>
      if node.references = 0 then none
      else if node.references - 1 = 0 then
        (releaseChildren (nodeRelease fuel) v.nodes.next
          (v.setNode n fun node => { node with references := node.references - 1 }) node.children).bind fun v =>
            if (v.node n).isNone then none
            else some { programDestroy v node.executable with nodes := v.nodes.free n }
      else some (v.setNode n fun node => { node with references := node.references - 1 })

def ramfsNodeRelease (v : Vfs) (n : NodeId) : Option Vfs := nodeRelease (v.nodes.next + 1) v n

/-- `ramfs_mount_destroy`. -/
def ramfsMountDestroy (v : Vfs) (m : MountId) : Option Vfs :=
  match v.mounts.get m with
  | none => none
  | some mount => (ramfsNodeRelease v mount.root).map fun v => { v with mounts := v.mounts.free m }

/-- The mount points are released first, in the order of the table. -/
def releasePoints : List MountEntry → Vfs → Option Vfs
  | [], v => some v
  | e :: entries, v => (ramfsNodeRelease v e.mountPoint).bind (releasePoints entries)

/-- Then the mounts are destroyed, the last one first. -/
def destroyMounts : List MountEntry → Vfs → Option Vfs
  | [], v => some v
  | e :: entries, v => (destroyMounts entries v).bind fun v => ramfsMountDestroy v e.mount

/-- `cb_vfs_destroy`. -/
def cbVfsDestroy (v : Vfs) : Option Vfs :=
  (releasePoints v.table v).bind fun v =>
    (destroyMounts v.table v).bind fun v => ramfsMountDestroy { v with table := [] } v.rootMount

/-! ### The checks change nothing -/

theorem releaseChildren_eq {release : Vfs → NodeId → Option Vfs} {release' : Vfs → NodeId → Vfs}
    (hrel : ∀ v n v', release v n = some v' → release' v n = v') (fuel : ℕ) :
    ∀ (v : Vfs) (o : Option NodeId) (v' : Vfs), releaseChildren release fuel v o = some v' →
      CannedBsd.releaseChildren release' fuel v o = v' := by
  induction fuel with
  | zero =>
    intro v o v' h
    cases o with
    | none => exact Option.some.inj h
    | some child => cases h
  | succ fuel ih =>
    intro v o v' h
    cases o with
    | none => exact Option.some.inj h
    | some child =>
      rw [releaseChildren] at h
      cases hx : v.node child with
      | none =>
        simp only [hx] at h
        cases h
      | some x =>
        simp only [hx] at h
        obtain ⟨u, hu, hrest⟩ := Option.bind_eq_some_iff.mp h
        rw [CannedBsd.releaseChildren, Vfs.nextOf_of_node hx, hrel _ _ _ hu]
        exact ih u x.nextSibling v' hrest

/-- Where the checks pass, the release is the one of the model. -/
theorem nodeRelease_eq (fuel : ℕ) : ∀ (v : Vfs) (n : NodeId) (v' : Vfs), nodeRelease fuel v n = some v' →
    CannedBsd.nodeRelease fuel v n = v' := by
  induction fuel with
  | zero =>
    intro v n v' h
    cases h
  | succ fuel ih =>
    intro v n v' h
    rw [nodeRelease] at h
    rw [CannedBsd.nodeRelease]
    cases hn : v.node n with
    | none =>
      simp only [hn] at h
      cases h
    | some node =>
      simp only [hn] at h ⊢
      split at h
      · cases h
      split at h
      · rename_i hlast
        obtain ⟨u, hu, hrest⟩ := Option.bind_eq_some_iff.mp h
        split at hrest
        · cases hrest
        have hnext : (v.setNode n fun node => { node with references := node.references - 1 }).nodes.next = v.nodes.next :=
          Heap.next_modify _ _ _
        rw [if_pos hlast, hnext, releaseChildren_eq ih _ _ _ _ hu]
        have hnodes : (programDestroy u node.executable).nodes = u.nodes := by
          cases node.executable <;> rfl
        rw [hnodes]
        exact Option.some.inj hrest
      · rename_i hmore
        rw [if_neg hmore]
        exact Option.some.inj h

/-! ### Programs -/

/-- Nodes go and take their programs along; the others keep theirs. -/
structure Spends (u u' : Vfs) : Prop where
  stock : Stocked u → Stocked u'
  ware : ∀ {x y'}, u'.node x = some y' → ∃ y, u.node x = some y ∧ y'.ware = y.ware
  destroyed : u.destroyed ⊆ u'.destroyed
  program : ∀ {x y p}, u.node x = some y → y.executable = some p → (u'.node x).isSome = true ∨ p ∈ u'.destroyed

namespace Spends

variable {u u' u'' : Vfs}

theorem refl (u : Vfs) : Spends u u :=
  ⟨id, fun h => ⟨_, h, rfl⟩, List.Subset.refl _, fun h _ => .inl (by rw [h, Option.isSome_some])⟩

theorem trans (h : Spends u u') (h' : Spends u' u'') : Spends u u'' := by
  refine ⟨fun hs => h'.stock (h.stock hs), fun hy => ?_, List.Subset.trans h.destroyed h'.destroyed, fun {x y p} hy hp => ?_⟩
  · obtain ⟨y', hy', heq'⟩ := h'.ware hy
    obtain ⟨y, hy, heq⟩ := h.ware hy'
    exact ⟨y, hy, heq'.trans heq⟩
  · rcases h.program hy hp with hlive | hgone
    · obtain ⟨y', hy'⟩ := Option.isSome_iff_exists.mp hlive
      obtain ⟨x, hx, heq⟩ := h.ware hy'
      rw [hy, Option.some.injEq] at hx
      subst hx
      have hp' : y'.executable = some p := (congrArg Prod.snd heq).trans hp
      exact h'.program hy' hp'
    · exact .inr (h'.destroyed hgone)

theorem setNode (u : Vfs) (n : NodeId) {f : Node → Node} (hf : ∀ node, (f node).ware = node.ware) :
    Spends u (u.setNode n f) := by
  have hsame : SameStock u (u.setNode n f) := .setNode u n fun node _ => hf node
  refine ⟨hsame.stocked, hsame.back, List.Subset.refl _, fun {x y p} hy _ => .inl ?_⟩
  have hware := congrArg Option.isSome (hsame.ware x)
  rw [Option.isSome_map, Option.isSome_map, hy] at hware
  exact hware

theorem free {n : NodeId} {node : Node} (hn : u.node n = some node) :
    Spends u { programDestroy u node.executable with nodes := u.nodes.free n } := by
  have hget : ∀ x, ({ programDestroy u node.executable with nodes := u.nodes.free n } : Vfs).node x =
      if x = n then none else u.node x := fun x => Heap.get_free _ _ _
  refine ⟨fun hs => (hs.free hn).1, fun {x y'} hy => ?_, ?_, fun {x y p} hy hp => ?_⟩
  · rw [hget] at hy
    split at hy
    · cases hy
    · exact ⟨y', hy, rfl⟩
  · cases node.executable with
    | none => exact List.Subset.refl _
    | some p => exact List.subset_cons_self _ _
  · rw [hget]
    by_cases hxn : x = n
    · rw [hxn, hn, Option.some.injEq] at hy
      rw [← hy] at hp
      simp [programDestroy, hp]
    · rw [if_neg hxn, hy]
      exact .inl rfl

/-- What neither the nodes nor the programs depend on. -/
theorem mounts (u : Vfs) (mounts : Heap Mount) (table : List MountEntry) :
    Spends u { u with mounts := mounts, table := table } :=
  ⟨fun hs => ⟨hs.typed, hs.live, hs.single, hs.once, hs.gone⟩, fun h => ⟨_, h, rfl⟩, List.Subset.refl _,
    fun h _ => .inl (congrArg Option.isSome h)⟩

end Spends

/-! ### The fall of a tree -/

/-- In `u` everything below `n` is as in `v`, but `n` itself is cut off. -/
structure Cut (v u : Vfs) (n : NodeId) (node : Node) : Prop where
  was : v.node n = some node
  top : u.node n = some { node with parent := none, nextSibling := none }
  below : ∀ x, Climb v.parentOf x n → x ≠ n → u.node x = v.node x
  next : u.nodes.next = v.nodes.next

/-- What was below the nodes `tops` is gone, except where a mark is on the way; nothing else changes. -/
structure ClearedBelow (v : Vfs) (mark : NodeId → Prop) (tops : List NodeId) (u u' : Vfs) : Prop where
  outside : ∀ x, (∀ c ∈ tops, ¬ Climb v.parentOf x c) → u'.node x = u.node x
  inside : ∀ c ∈ tops, ∀ x, Climb v.parentOf x c → ((u'.node x).isSome = true ↔ Marked v.parentOf mark x c)
  next : u'.nodes.next = u.nodes.next
  mounts : SameMounts u u'
  spends : Spends u u'

/-- Every node with a parent is counted once for its place and once for each stray pointer. -/
def CountedWithStray (v : Vfs) (stray : NodeId → ℕ) : Prop :=
  ∀ {x node}, v.node x = some node → node.parent ≠ none → node.references = stray x + 1

variable {v u : Vfs} {stray : NodeId → ℕ} {n : NodeId} {node : Node}

/-- A node below another one is live. -/
theorem live_of_climb {x : NodeId} (hx : Climb v.parentOf x n) (hn : v.node n = some node) : (v.node x).isSome = true := by
  cases hx with
  | refl => rw [hn, Option.isSome_some]
  | step hp _ =>
    obtain ⟨y, hy, -⟩ := Vfs.node_of_parentOf hp
    rw [hy, Option.isSome_some]

/-- The loop over the children, when the release of one child clears what is below it. -/
theorem releaseChildren_cleared {release : Vfs → NodeId → Option Vfs} {mark : NodeId → Prop} (hf : Forest v.parentOf)
    (hrel : ∀ {u c node}, v.parentOf c = some n → Cut v u c node →
      ∃ u', release u c = some u' ∧ ClearedBelow v mark [c] u u') (cs : List NodeId) :
    ∀ (fuel : ℕ) (u : Vfs) (start : Option NodeId), Chain v.nextOf start cs → (∀ c ∈ cs, v.parentOf c = some n) →
      cs.length ≤ fuel → (∀ c ∈ cs, ∀ x, Climb v.parentOf x c → u.node x = v.node x) → u.nodes.next = v.nodes.next →
      ∃ u', releaseChildren release fuel u start = some u' ∧ ClearedBelow v mark cs u u' := by
  induction cs with
  | nil =>
    intro fuel u start hchain _ _ _ _
    rw [hchain.eq_none]
    refine ⟨u, ?_, fun _ _ => rfl, fun c hc => ?_, rfl, .refl u, .refl u⟩
    · cases fuel <;> rfl
    · cases hc
  | cons c cs ih =>
    intro fuel u start hchain hparent hlen hsame hnext
    obtain ⟨fuel, rfl⟩ : ∃ m, fuel = m + 1 := ⟨fuel - 1, by simp only [List.length_cons] at hlen; omega⟩
    have hnodup := hchain.nodup
    have hc : v.parentOf c = some n := hparent c (List.mem_cons_self ..)
    obtain ⟨x, hx, -⟩ := Vfs.node_of_parentOf hc
    have hux : u.node c = some x := by rw [hsame c (List.mem_cons_self ..) c .refl, hx]
    set u₁ := u.setNode c fun node => { node with parent := none, nextSibling := none } with hu₁
    have hother : ∀ y, y ≠ c → u₁.node y = u.node y := fun y hy => Vfs.node_setNode_of_ne _ _ hy
    have hcut : Cut v u₁ c x := by
      refine ⟨hx, ?_, fun y hy hne => ?_, ?_⟩
      · rw [hu₁, Vfs.node_setNode_self, hux]
        rfl
      · rw [hother y hne]
        exact hsame c (List.mem_cons_self ..) y hy
      · rw [← hnext]
        exact Heap.next_modify _ _ _
    obtain ⟨u₂, hrun, hclear⟩ := hrel hc hcut
    -- what is below the other children is not below this one
    have hapart : ∀ c' ∈ cs, ∀ y, Climb v.parentOf y c' → ¬ Climb v.parentOf y c := by
      intro c' hc' y hy hyc
      have heq := hf.siblings hc (hparent c' (List.mem_cons_of_mem c hc')) hyc hy
      rw [heq] at hnodup
      exact (List.nodup_cons.mp hnodup).1 hc'
    have hkeep : ∀ y, ¬ Climb v.parentOf y c → u₂.node y = u.node y := by
      intro y hy
      rw [hclear.outside y (by simpa using hy)]
      apply hother
      intro heq
      rw [heq] at hy
      exact hy .refl
    have hrest : Chain v.nextOf x.nextSibling cs := by
      rw [← Vfs.nextOf_of_node hx]
      cases hchain with
      | cons h => exact h
    have hsame₂ : ∀ c' ∈ cs, ∀ y, Climb v.parentOf y c' → u₂.node y = v.node y := by
      intro c' hc' y hy
      rw [hkeep y (hapart c' hc' y hy)]
      exact hsame c' (List.mem_cons_of_mem c hc') y hy
    have hnext₂ : u₂.nodes.next = v.nodes.next := hclear.next.trans hcut.next
    obtain ⟨u₃, hrun₃, hclear₃⟩ := ih fuel u₂ x.nextSibling hrest (fun c' hc' => hparent c' (List.mem_cons_of_mem c hc'))
      (by simp only [List.length_cons] at hlen; omega) hsame₂ hnext₂
    refine ⟨u₃, ?_, fun y hy => ?_, fun c' hc' y hy => ?_, ?_, ?_, ?_⟩
    · rw [hchain.eq_some, releaseChildren]
      simp only [hux]
      rw [← hu₁, hrun]
      exact hrun₃
    · rw [hclear₃.outside y fun c' hc' => hy c' (List.mem_cons_of_mem c hc')]
      exact hkeep y (hy c (List.mem_cons_self ..))
    · rcases List.mem_cons.mp hc' with heq | hmem
      · rw [heq] at hy ⊢
        rw [hclear₃.outside y fun c'' hc'' hy'' => hapart c'' hc'' y hy'' hy]
        exact hclear.inside c (List.mem_singleton.mpr rfl) y hy
      · exact hclear₃.inside c' hmem y hy
    · rw [hclear₃.next, hnext₂, hnext]
    · exact ((SameMounts.setNode u c _).trans hclear.mounts).trans hclear₃.mounts
    · have hloose : Spends u u₁ := .setNode u c fun _ => rfl
      exact (hloose.trans hclear.spends).trans hclear₃.spends

theorem not_climb_of_ne {tops : List NodeId} {x c : NodeId} (hx : ∀ c ∈ tops, ¬ Climb v.parentOf x c) (hc : c ∈ tops) :
    x ≠ c := by
  intro heq
  apply hx c hc
  rw [heq]
  exact .refl

/-- A marked node stays, with what is below it. -/
theorem cleared_of_mark {mark : NodeId → Prop} {f : Node → Node} (hcut : Cut v u n node) (hmark : mark n)
    (hware : ∀ node, (f node).ware = node.ware) : ClearedBelow v mark [n] u (u.setNode n f) := by
  refine ⟨fun x hx => ?_, fun c hc x hx => ?_, Heap.next_modify _ _ _, .setNode u n _, .setNode u n hware⟩
  · exact Vfs.node_setNode_of_ne _ _ (not_climb_of_ne hx (List.mem_singleton.mpr rfl))
  · rw [List.mem_singleton.mp hc] at hx ⊢
    have hsome : ((u.setNode n f).node x).isSome = true := by
      by_cases hxn : x = n
      · rw [hxn, Vfs.node_setNode_self, hcut.top]
        rfl
      · rw [Vfs.node_setNode_of_ne _ _ hxn, hcut.below x hx hxn]
        exact live_of_climb hx hcut.was
    simp only [hsome, true_iff]
    exact ⟨n, hx, .refl, hmark⟩

/-- A node that is not marked is freed after what is below its children. -/
theorem ClearedBelow.topple {mark : NodeId → Prop} {f : Node → Node} {cs : List NodeId} {u₂ : Vfs} {y : Node}
    (hf : Forest v.parentOf) (hmark : ¬ mark n) (hmem : ∀ c, c ∈ cs ↔ v.parentOf c = some n)
    (h : ClearedBelow v mark cs (u.setNode n f) u₂) (hware : ∀ node, (f node).ware = node.ware) (hy : u₂.node n = some y) :
    ClearedBelow v mark [n] u { programDestroy u₂ y.executable with nodes := u₂.nodes.free n } := by
  have hfree : ∀ x, ({ programDestroy u₂ y.executable with nodes := u₂.nodes.free n } : Vfs).node x =
      if x = n then none else u₂.node x := fun x => Heap.get_free _ _ _
  refine ⟨fun x hx => ?_, fun c hc x hx => ?_, ?_, ?_, ?_⟩
  · have hxn : x ≠ n := not_climb_of_ne hx (List.mem_singleton.mpr rfl)
    have hout : ∀ c ∈ cs, ¬ Climb v.parentOf x c := by
      intro c hc hxc
      exact hx n (List.mem_singleton.mpr rfl) (hxc.trans (.step ((hmem c).mp hc) .refl))
    rw [hfree, if_neg hxn, h.outside x hout, Vfs.node_setNode_of_ne _ _ hxn]
  · rw [List.mem_singleton.mp hc] at hx ⊢
    rw [hfree]
    by_cases hxn : x = n
    · rw [if_pos hxn, hxn]
      simpa using hf.not_marked_self hmark
    · rw [if_neg hxn]
      obtain ⟨c', hc', hxc⟩ := hx.child_above hxn
      rw [h.inside c' ((hmem c').mpr hc') x hxc]
      exact (hf.marked_child hmark hc' hxc).symm
  · show (u₂.nodes.free n).next = _
    rw [Heap.next_free, h.next]
    exact Heap.next_modify _ _ _
  · have hprogram := Sound.sameMounts_programDestroy u₂ y.executable
    exact (SameMounts.setNode u n _).trans (h.mounts.trans (hprogram.trans ⟨rfl, rfl, rfl, rfl⟩))
  · exact ((Spends.setNode u n hware).trans h.spends).trans (.free hy)

/-- **The fall of a tree.**  Giving back the reference of a node that has been cut off frees what is below
it, down to the stray pointers, and touches no node twice. The induction is on the bound of the depth. -/
theorem nodeRelease_cleared (hl : Links v) (hf : Forest v.parentOf) (hcount : CountedWithStray v stray) (fuel : ℕ) :
    ∀ {n : NodeId} {node : Node} {u : Vfs}, Shallow v.parentOf fuel n → Cut v u n node →
      node.references = stray n + 1 →
      ∃ u', nodeRelease fuel u n = some u' ∧ ClearedBelow v (fun d => 0 < stray d) [n] u u' := by
  induction fuel with
  | zero =>
    intro n node u hshallow
    exact absurd hshallow id
  | succ fuel ih =>
    intro n node u hshallow hcut href
    rw [nodeRelease]
    simp only [hcut.top, href]
    rw [if_neg (Nat.succ_ne_zero _), Nat.add_sub_cancel]
    by_cases hstray : stray n = 0
    · rw [if_pos hstray]
      obtain ⟨cs, hchain, hmem⟩ := hl.children hcut.was
      have hout : ∀ c ∈ cs, ¬ Climb v.parentOf n c := fun c hc => hf.not_climb_child ((hmem c).mp hc)
      have hchild : ∀ {u' c x}, v.parentOf c = some n → Cut v u' c x →
          ∃ u'', nodeRelease fuel u' c = some u'' ∧ ClearedBelow v (fun d => 0 < stray d) [c] u' u'' := by
        intro u' c x hc hcut'
        obtain ⟨y, hy, hpy⟩ := Vfs.node_of_parentOf hc
        have hxy : y = x := by
          have hwas := hcut'.was
          rw [hy, Option.some.injEq] at hwas
          exact hwas
        rw [hxy] at hy hpy
        exact ih (hshallow c hc) hcut' (hcount hy (by rw [hpy]; simp))
      set u₁ := u.setNode n fun node => { node with references := node.references - 1 } with hu₁
      have hsame : ∀ c ∈ cs, ∀ x, Climb v.parentOf x c → u₁.node x = v.node x := by
        intro c hc x hx
        have hxn : x ≠ n := by
          intro heq
          rw [heq] at hx
          exact hout c hc hx
        rw [hu₁, Vfs.node_setNode_of_ne _ _ hxn]
        exact hcut.below x (hx.trans (.step ((hmem c).mp hc) .refl)) hxn
      obtain ⟨u₂, hrun, hclear⟩ := releaseChildren_cleared hf hchild cs u.nodes.next u₁ node.children hchain
        (fun c hc => (hmem c).mp hc) (by rw [hcut.next]; exact Links.length_le hchain hmem) hsame
        ((Heap.next_modify _ _ _).trans hcut.next)
      have hlive : u₂.node n = some { node with parent := none, nextSibling := none, references := node.references - 1 } := by
        rw [hclear.outside n hout, hu₁, Vfs.node_setNode_self, hcut.top]
        rfl
      have hfall := hclear.topple hf (by omega) hmem (fun _ => rfl) hlive
      refine ⟨{ programDestroy u₂ node.executable with nodes := u₂.nodes.free n }, ?_, hfall⟩
      rw [hrun, Option.bind_some, hlive]
      rfl
    · rw [if_neg hstray]
      exact ⟨_, rfl, cleared_of_mark hcut (Nat.pos_of_ne_zero hstray) fun _ => rfl⟩

/-! ### The mount table -/

/-- The references of the mount points that are left have not been given back yet. -/
def lowered (v : Vfs) (stray : NodeId → ℕ) (entries : List MountEntry) (n : NodeId) (node : Node) : Node :=
  { node with references := anchor v n node + entries.countP (fun e => e.mountPoint = n) + stray n }

/-- Releasing the mount points lowers their counts; they keep the reference of their directory. -/
theorem releasePoints_lowered (ht : Tree v) (entries : List MountEntry) :
    ∀ u : Vfs, (∀ e ∈ entries, e ∈ v.table) → (∀ n, u.node n = (v.node n).map (lowered v stray entries n)) →
      SameMounts v u → u.nodes.next = v.nodes.next →
      ∃ u', releasePoints entries u = some u' ∧ (∀ n, u'.node n = (v.node n).map (lowered v stray [] n)) ∧
        SameMounts v u' ∧ u'.nodes.next = v.nodes.next ∧ Spends u u' := by
  induction entries with
  | nil =>
    intro u _ hnodes hmounts hnext
    exact ⟨u, rfl, hnodes, hmounts, hnext, .refl u⟩
  | cons e entries ih =>
    intro u hmem hnodes hmounts hnext
    obtain ⟨i, hi⟩ := List.mem_iff_getElem?.mp (hmem e (List.mem_cons_self ..))
    obtain ⟨node, d, r, hn, -, hp, -, -⟩ := ht.points hi
    have hun : u.node e.mountPoint = some (lowered v stray (e :: entries) e.mountPoint node) := by
      rw [hnodes, hn]
      rfl
    have hcount : (lowered v stray (e :: entries) e.mountPoint node).references =
        entries.countP (fun e' => e'.mountPoint = e.mountPoint) + stray e.mountPoint + 2 := by
      have hanchor : anchor v e.mountPoint node = 1 := anchor_of_parent (by rw [hp]; simp)
      simp only [lowered, hanchor, List.countP_cons, decide_true, if_true]
      omega
    set u₁ := u.setNode e.mountPoint fun node => { node with references := node.references - 1 } with hu₁
    have hstep : ramfsNodeRelease u e.mountPoint = some u₁ := by
      rw [ramfsNodeRelease, nodeRelease]
      simp only [hun]
      rw [if_neg (by omega), if_neg (by omega)]
    have hnodes₁ : ∀ n, u₁.node n = (v.node n).map (lowered v stray entries n) := by
      intro n
      by_cases hne : n = e.mountPoint
      · rw [hne, hu₁, Vfs.node_setNode_self, hun, hn]
        simp [lowered]
        omega
      · rw [hu₁, Vfs.node_setNode_of_ne _ _ hne, hnodes]
        congr 1
        funext x
        simp [lowered, Ne.symm hne]
    obtain ⟨u', hrun, hrest, hmounts', hnext', hspends⟩ := ih u₁ (fun e' he' => hmem e' (List.mem_cons_of_mem e he'))
      hnodes₁ (hmounts.trans (.setNode u _ _)) ((Heap.next_modify _ _ _).trans hnext)
    have hlower : Spends u u₁ := .setNode u _ fun _ => rfl
    refine ⟨u', ?_, hrest, hmounts', hnext', hlower.trans hspends⟩
    rw [releasePoints, hstep, Option.bind_some, hrun]

/-! ### The mounts -/

/-- A pointer to the node, or to a directory above it, was never given back. -/
def Strayed (v : Vfs) (stray : NodeId → ℕ) (n : NodeId) : Prop := ∃ d, Climb v.parentOf n d ∧ 0 < stray d

/-- All mount points have been released: a node is counted for its place and for the stray pointers. -/
structure MountsReleased (w : Vfs) (stray : NodeId → ℕ) : Prop where
  tree : Tree w
  linked : CountedWithStray w stray
  root : ∀ {m r node}, w.rootOf m = some r → w.node r = some node → node.references = stray r + 1
  loose : ∀ {n node}, w.node n = some node → node.parent = none → w.rootOf node.mount ≠ some n → 0 < stray n

/-- The mounts of `M` have been destroyed. -/
structure Razed (w : Vfs) (stray : NodeId → ℕ) (M : List MountId) (u : Vfs) : Prop where
  kept : ∀ {n node}, w.node n = some node → node.mount ∉ M → u.node n = some node
  razed : ∀ {n node}, w.node n = some node → node.mount ∈ M → ((u.node n).isSome = true ↔ Strayed w stray n)
  gone : ∀ {n}, w.node n = none → u.node n = none
  mounts : ∀ m, u.mounts.get m = if m ∈ M then none else w.mounts.get m
  next : u.nodes.next = w.nodes.next
  spends : Spends w u

theorem Razed.refl (w : Vfs) (stray : NodeId → ℕ) : Razed w stray [] w := by
  refine ⟨fun h _ => h, fun _ hm => ?_, id, fun m => ?_, rfl, .refl w⟩
  · cases hm
  · rw [if_neg List.not_mem_nil]

theorem tree_forest (ht : Tree v) : Forest v.parentOf := by
  intro a p hp
  obtain ⟨x, hx, hxp⟩ := Vfs.node_of_parentOf hp
  obtain ⟨r, hr, hclimb⟩ := ht.climbs hx hxp
  obtain ⟨root, hroot, -, hnone, -⟩ := ht.roots hr
  exact ⟨r, hclimb, (Vfs.parentOf_of_node hroot).trans hnone⟩

/-- Below a root, a stray pointer is on the way to it. -/
theorem marked_iff_strayed {x r : NodeId} (hx : Climb v.parentOf x r) (hr : v.parentOf r = none) :
    Marked v.parentOf (fun d => 0 < stray d) x r ↔ Strayed v stray x := by
  constructor
  · intro h
    obtain ⟨d, hd, -, hpos⟩ := h
    exact ⟨d, hd, hpos⟩
  · intro h
    obtain ⟨d, hd, hpos⟩ := h
    rcases hx.comparable hd with hrd | hdr
    · have heq := hrd.eq_of_up_none hr
      exact ⟨d, hd, heq ▸ .refl, hpos⟩
    · exact ⟨d, hd, hdr, hpos⟩

/-- `ramfs_mount_destroy` frees the tree of one more mount. -/
theorem Razed.destroy {w : Vfs} {M : List MountId} {m : MountId} {r : NodeId} (hw : MountsReleased w stray)
    (h : Razed w stray M u) (hm : m ∉ M) (hr : w.rootOf m = some r) :
    ∃ u', ramfsMountDestroy u m = some u' ∧ Razed w stray (m :: M) u' ∧ u'.table = u.table ∧ u'.rootMount = u.rootMount := by
  have hf := tree_forest hw.tree
  obtain ⟨root, hroot, -, hnone, hmount⟩ := hw.tree.roots hr
  obtain ⟨mount, hget, hrootOf⟩ := Option.map_eq_some_iff.mp hr
  have htop : w.parentOf r = none := (Vfs.parentOf_of_node hroot).trans hnone
  -- what is below the root is on this mount, so it is untouched so far
  have hbelow : ∀ {x}, Climb w.parentOf x r → ∃ node, w.node x = some node ∧ node.mount = m := by
    intro x hx
    obtain ⟨node, hn⟩ := Option.isSome_iff_exists.mp (live_of_climb hx hroot)
    obtain ⟨b, hb, heq⟩ := hw.tree.climb_live hx hn
    rw [hroot, Option.some.injEq] at hb
    subst hb
    exact ⟨node, hn, heq.symm.trans hmount⟩
  have hcut : Cut w u r root := by
    refine ⟨hroot, ?_, fun x hx _ => ?_, h.next⟩
    · have hsibling := hw.tree.links.loose hroot hnone
      have hsame : { root with parent := none, nextSibling := none } = root := by
        cases root
        simp only at hnone hsibling
        rw [hnone, hsibling]
      rw [h.kept hroot (by rwa [hmount]), hsame]
    · obtain ⟨node, hn, heq⟩ := hbelow hx
      rw [h.kept hn (by rwa [heq]), hn]
  have hshallow : Shallow w.parentOf (u.nodes.next + 1) r := by
    refine hf.shallow (fun c p hp => ?_) r
    obtain ⟨dir, hdir, -⟩ := hw.tree.links.parent hp
    rw [h.next]
    exact Vfs.lt_next_of_node hdir
  obtain ⟨u', hrun, hclear⟩ := nodeRelease_cleared hw.tree.links hf hw.linked _ hshallow hcut (hw.root hr hroot)
  refine ⟨{ u' with mounts := u'.mounts.free m }, ?_, ?_, hclear.mounts.table, hclear.mounts.rootMount⟩
  · rw [ramfsMountDestroy, h.mounts, if_neg hm, hget]
    dsimp only
    rw [hrootOf, ramfsNodeRelease, hrun]
    rfl
  have hout : ∀ {x}, ¬ Climb w.parentOf x r → u'.node x = u.node x := by
    intro x hx
    exact hclear.outside x (by simpa using hx)
  refine ⟨fun {n node} hn hnot => ?_, fun {n node} hn hin => ?_, fun {n} hn => ?_, fun m' => ?_, hclear.next.trans h.next,
    h.spends.trans (hclear.spends.trans (.mounts u' _ u'.table))⟩
  · rw [List.mem_cons, not_or] at hnot
    have hnr : ¬ Climb w.parentOf n r := by
      intro hx
      obtain ⟨x, hx, heq⟩ := hbelow hx
      rw [hn, Option.some.injEq] at hx
      rw [hx] at hnot
      exact hnot.1 heq
    exact (hout hnr).trans (h.kept hn hnot.2)
  · by_cases hx : Climb w.parentOf n r
    · have hmarked := hclear.inside r (List.mem_singleton.mpr rfl) n hx
      exact hmarked.trans (marked_iff_strayed hx htop)
    · have hsame : ({ u' with mounts := u'.mounts.free m } : Vfs).node n = u.node n := hout hx
      rw [hsame]
      by_cases hmem : node.mount ∈ M
      · exact h.razed hn hmem
      · -- a node of this mount that is not below its root is loose
        have heq : node.mount = m := (List.mem_cons.mp hin).resolve_right hmem
        have hparent : node.parent = none := by
          cases hp : node.parent with
          | none => rfl
          | some d =>
            obtain ⟨r', hr', hclimb⟩ := hw.tree.climbs hn hp
            rw [heq, hr, Option.some.injEq] at hr'
            rw [hr'] at hx
            exact absurd hclimb hx
        have hother : w.rootOf node.mount ≠ some n := by
          intro hroot'
          rw [heq, hr, Option.some.injEq] at hroot'
          rw [hroot'] at hx
          exact hx .refl
        rw [h.kept hn hmem, Option.isSome_some]
        simp only [true_iff]
        exact ⟨n, .refl, hw.loose hn hparent hother⟩
  · have hnr : ¬ Climb w.parentOf n r := by
      intro hx
      obtain ⟨x, hx, -⟩ := hbelow hx
      rw [hn] at hx
      cases hx
    exact (hout hnr).trans (h.gone hn)
  · show (u'.mounts.free m).get m' = _
    rw [Heap.get_free, hclear.mounts.mounts, h.mounts]
    by_cases hmm : m' = m
    · simp [hmm]
    · simp [hmm]

/-- The loop over the mounts, by induction on the table. -/
theorem destroyMounts_razed {w : Vfs} (hw : MountsReleased w stray) (entries : List MountEntry) :
    (entries.map MountEntry.mount).Nodup → (∀ e ∈ entries, ∃ r, w.rootOf e.mount = some r) →
      ∃ u', destroyMounts entries w = some u' ∧ Razed w stray (entries.map MountEntry.mount) u' ∧
        u'.table = w.table ∧ u'.rootMount = w.rootMount := by
  induction entries with
  | nil =>
    intro _ _
    exact ⟨w, rfl, .refl w stray, rfl, rfl⟩
  | cons e entries ih =>
    intro hnodup hroots
    rw [List.map_cons, List.nodup_cons] at hnodup
    obtain ⟨u, hrun, hrazed, htable, hmount⟩ := ih hnodup.2 fun e' he' => hroots e' (List.mem_cons_of_mem e he')
    obtain ⟨r, hr⟩ := hroots e (List.mem_cons_self ..)
    obtain ⟨u', hstep, hnext, htable', hmount'⟩ := hrazed.destroy hw hnodup.1 hr
    refine ⟨u', ?_, hnext, htable'.trans htable, hmount'.trans hmount⟩
    rw [destroyMounts, hrun, Option.bind_some, hstep]

/-- When the mount points have been released, what is left is a tree with its stray pointers. -/
theorem settled_of_lowered {w : Vfs} (h : Sound v stray) (hlive : ∀ {n node}, v.node n = some node → 0 < node.references)
    (hnodes : ∀ n, w.node n = (v.node n).map (lowered v stray [] n)) (hmounts : SameMounts v w) : MountsReleased w stray := by
  have hshape : SameShape v w := by
    intro n
    rw [hnodes]
    cases v.node n <;> rfl
  have hback : ∀ {n node}, w.node n = some node → ∃ x, v.node n = some x ∧ node = lowered v stray [] n x := by
    intro n node hn
    rw [hnodes, Option.map_eq_some_iff] at hn
    obtain ⟨x, hx, heq⟩ := hn
    exact ⟨x, hx, heq.symm⟩
  refine ⟨h.tree.same hmounts hshape, fun {n node} hn hp => ?_, fun {m r node} hr hn => ?_, fun {n node} hn hp hroot => ?_⟩
  · obtain ⟨x, hx, rfl⟩ := hback hn
    have hplace : anchor v n x = 1 := anchor_of_parent hp
    show anchor v n x + 0 + stray n = stray n + 1
    omega
  · obtain ⟨x, hx, rfl⟩ := hback hn
    rw [hmounts.rootOf] at hr
    obtain ⟨y, hy, -, -, heq⟩ := h.tree.roots hr
    rw [hx, Option.some.injEq] at hy
    subst hy
    show anchor v r x + 0 + stray r = stray r + 1
    rw [anchor, if_pos (.inr (heq ▸ hr))]
    omega
  · obtain ⟨x, hx, rfl⟩ := hback hn
    rw [hmounts.rootOf] at hroot
    have hcount := h.refs.count hx
    have hpos := hlive hx
    have hplace : anchor v n x = 0 := if_neg (not_or.mpr ⟨not_not.mpr hp, hroot⟩)
    have hpoint := h.tree.mountsOn_of_parentOf ((Vfs.parentOf_of_node hx).trans hp)
    omega

/-- What `cb_vfs_destroy` leaves. -/
structure Demolished (v : Vfs) (stray : NodeId → ℕ) (v' : Vfs) : Prop where
  nodes : ∀ n, (v'.node n).isSome = true ↔
    ∃ node, v.node n = some node ∧ (node.mount ∉ attached v ∨ Strayed v stray n)
  mounts : ∀ m, v'.mounts.get m = if m ∈ attached v then none else v.mounts.get m
  table : v'.table = []
  spends : Spends v v'

/-- **The end of the file system.**  `cb_vfs_destroy` touches no node that has been freed. Of the mounts
that were attached no node stays, but those at or below a stray pointer. -/
theorem cbVfsDestroy_demolished (h : Sound v stray) (hlive : ∀ {n node}, v.node n = some node → 0 < node.references)
    (hroot : ∃ r, v.rootOf v.rootMount = some r) (hnodup : (attached v).Nodup) :
    ∃ v', cbVfsDestroy v = some v' ∧ Demolished v stray v' := by
  have hstart : ∀ n, v.node n = (v.node n).map (lowered v stray v.table n) := by
    intro n
    cases hn : v.node n with
    | none => rfl
    | some node =>
      have hcount := h.refs.count hn
      rw [mountsOn] at hcount
      rw [Option.map_some, lowered, ← hcount]
  obtain ⟨w, hpoints, hnodes, hmounts, hnext, hspends⟩ := releasePoints_lowered h.tree v.table v (fun _ he => he) hstart
    (.refl v) rfl
  have hw := settled_of_lowered h hlive hnodes hmounts
  have hparent : w.parentOf = v.parentOf := by
    funext n
    rw [Vfs.parentOf, Vfs.parentOf, hnodes]
    cases v.node n <;> rfl
  rw [attached, List.nodup_cons] at hnodup
  have hroots : ∀ e ∈ w.table, ∃ r, w.rootOf e.mount = some r := by
    intro e he
    rw [hmounts.table] at he
    obtain ⟨i, hi⟩ := List.mem_iff_getElem?.mp he
    obtain ⟨-, -, r, -, -, -, -, hr⟩ := h.tree.points hi
    exact ⟨r, by rw [hmounts.rootOf, hr]⟩
  obtain ⟨u, hrun, hrazed, htable, hmount⟩ := destroyMounts_razed hw w.table (by rw [hmounts.table]; exact hnodup.2) hroots
  rw [hmounts.table] at hrazed
  obtain ⟨r, hr⟩ := hroot
  have hcleared : Razed w stray (v.table.map MountEntry.mount) { u with table := [] } :=
    ⟨hrazed.kept, hrazed.razed, hrazed.gone, hrazed.mounts, hrazed.next, hrazed.spends.trans (.mounts u u.mounts [])⟩
  have hsame : u.rootMount = v.rootMount := hmount.trans hmounts.rootMount
  obtain ⟨v', hlast, hall, htable', -⟩ := hcleared.destroy hw hnodup.1 (r := r) (by rw [hmounts.rootOf, hr])
  refine ⟨v', ?_, fun n => ?_, fun m => ?_, htable', hspends.trans hall.spends⟩
  · rw [← hsame] at hlast
    rw [cbVfsDestroy, hpoints, Option.bind_some, hrun, Option.bind_some, hlast]
  · have hstray : Strayed w stray n ↔ Strayed v stray n := by rw [Strayed, Strayed, hparent]
    cases hn : v.node n with
    | none =>
      have hgone : w.node n = none := by rw [hnodes, hn]; rfl
      rw [hall.gone hgone]
      simp
    | some node =>
      have hwn : w.node n = some (lowered v stray [] n node) := by rw [hnodes, hn]; rfl
      by_cases hmem : node.mount ∈ attached v
      · rw [hall.razed hwn hmem, hstray]
        simp [hmem]
      · rw [hall.kept hwn hmem]
        simp [hmem]
  · rw [hall.mounts, hmounts.mounts]
    rfl

end Demolition

end CannedBsd
