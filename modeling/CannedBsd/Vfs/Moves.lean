import CannedBsd.Vfs.Stock

/-!
# Elementary changes

`VMove` lists the changes the file system goes through, with the references the running call holds
in its local variables before and after. Every change keeps the tree and the counts, and a node
leaves its directory only where the move says so. The operations of `src/ramfs.c` are sequences of
such changes.

* `VMove.sound`: an elementary change keeps the tree and the counts, whoever else holds references.
* `VMove.parentOf_keep`: a child stays where it is unless it is allowed to go.
* `unlinkNode_moves`, `ramfsRename_moves`, `cbRamfsMountCreate_moves`: the operations are sequences of
  changes.
-/

namespace CannedBsd

open CannedBsd.Lib

/-- One change of the file system, with the node references in the hands of the running call.
A node leaves its place in a directory only if `gone` allows it. -/
inductive VMove (gone : NodeId → Prop) : Vfs → (NodeId → ℕ) → Vfs → (NodeId → ℕ) → Prop
  | same {v v' : Vfs} {a : NodeId → ℕ} : SameMounts v v' →
      (∀ n, (v'.node n).map Node.fixed = (v.node n).map Node.fixed) → SameStock v v' → VMove gone v a v' a
  | retain {v : Vfs} {a a' : NodeId → ℕ} {n : NodeId} {node : Node} : v.node n = some node →
      (∀ c, a' c = a c + pointsTo (some n) c) → VMove gone v a (ramfsNodeRetain v n) a'
  | release {v : Vfs} {a a' : NodeId → ℕ} {n : NodeId} :
      (∀ c, a c = a' c + pointsTo (some n) c) → VMove gone v a (ramfsNodeRelease v n) a'
  | create {v v' : Vfs} {a : NodeId → ℕ} {d n : NodeId} {dir new : Node} : SameMounts v v' →
      Links.Pushed v v' d n dir new → v.node n = none →
      (dir.parent ≠ none ∨ v.rootOf dir.mount = some d) → new.references = 1 → NewStock v v' n new →
      VMove gone v a v' a
  | detach {v : Vfs} {a a' : NodeId → ℕ} {d n : NodeId} {link : Link NodeId} : gone n →
      v.parentOf n = some d → linkTo v d n = some link → v.childrenOf n = none →
      (∀ e ∈ v.table, e.mountPoint ≠ n) → (∀ c, a' c = a c + pointsTo (some n) c) →
      VMove gone v a (detachNode v d n link) a'
  | move {v v' : Vfs} {a : NodeId → ℕ} {d d' n : NodeId} {dir dir₀ new old : Node}
      {link : Link NodeId} : gone n → SameMounts v v' → v.parentOf n = some d →
      linkTo v d n = some link → Links.Pushed (detachNode v d n link) v' d' n dir new →
      v.node d' = some dir₀ → (dir₀.parent ≠ none ∨ v.rootOf dir₀.mount = some d') →
      ¬ Climb v.parentOf d' n → v.node n = some old → new.references = old.references →
      SameStock v v' → VMove gone v a v' a
  | mountRoot {v v' : Vfs} {a : NodeId → ℕ} {m : MountId} {n : NodeId} {new : Node} :
      NewRoot v v' m n new → NewStock v v' n new → VMove gone v a v' a
  | attach {v : Vfs} {a a' : NodeId → ℕ} {n r : NodeId} {m : MountId} {node : Node} :
      v.node n = some node → node.type = .directory → node.parent ≠ none →
      node.mount ∈ attached v → v.rootOf m = some r → m ∉ attached v →
      (∀ c, a c = a' c + pointsTo (some n) c) →
      VMove gone v a { v with table := v.table ++ [⟨n, m⟩] } a'
  | prepare {v : Vfs} {a : NodeId → ℕ} {program : Program} {count : ℕ} :
      VMove gone v a { v with programs := v.programs.alloc program, programCount := count } a
  | discard {v : Vfs} {a : NodeId → ℕ} {p : ProgramId} {program : Program} : v.programs.get p = some program →
      (∀ {n node}, v.node n = some node → node.executable ≠ some p) → VMove gone v a (programDestroy v (some p)) a

/-! ### What every change keeps -/

namespace VMove

variable {gone : NodeId → Prop} {v v' : Vfs} {a a' ext : NodeId → ℕ}

/-- **Soundness.**  An elementary change keeps the tree and the counts, whoever else holds
references. -/
theorem sound (hmove : VMove gone v a v' a') (h : Sound v fun n => ext n + a n) :
    Sound v' fun n => ext n + a' n := by
  cases hmove with
  | same hs hnodes _ => exact h.same hs hnodes
  | retain hn ha => exact h.retain hn fun c => by rw [ha, Nat.add_assoc]
  | release ha => exact h.release fun c => by rw [ha, Nat.add_assoc]
  | create hs hp hfree hd hrefs _ => exact h.create hs hp hfree hd hrefs
  | detach _ hp hlink hch hpoint ha =>
    exact h.detach hp hlink hch hpoint fun c => by rw [ha, Nat.add_assoc]
  | move _ hs hp hlink hpush hd' hr hbelow hn hrefs _ =>
    exact h.move hs hp hlink hpush hd' hr hbelow hn hrefs
  | mountRoot hr _ => exact h.mountRoot hr
  | attach hn hdir hp ha hm _ hext =>
    exact h.attach hn hdir hp ha hm fun c => by rw [hext, Nat.add_assoc]
  | prepare => exact h.same ⟨rfl, rfl, rfl, rfl⟩ fun _ => rfl
  | discard => exact h.same ⟨rfl, rfl, rfl, rfl⟩ fun _ => rfl

/-- A child stays where it is unless it is allowed to go. -/
theorem parentOf_keep (hmove : VMove gone v a v' a') (h : Sound v fun n => ext n + a n) {c d : NodeId}
    (hp : v.parentOf c = some d) (hc : ¬ gone c) : v'.parentOf c = some d := by
  cases hmove with
  | same hs hnodes _ => rw [(Sound.sameShape_of_fixed hnodes).parentOf, hp]
  | @retain _ _ n _ hn ha =>
    have hshape : SameShape v (ramfsNodeRetain v n) := .setNode v n fun _ _ => rfl
    rw [hshape.parentOf, hp]
  | @release _ _ n ha =>
    have hpos : 0 < ext n + a n := by
      rw [ha, pointsTo_self]
      omega
    obtain ⟨node, hn, ⟨-, heq⟩ | ⟨hone, -, hnodes⟩⟩ := h.release_cases hpos
    · have hshape : SameShape v (ramfsNodeRelease v n) := by
        rw [heq]
        exact .setNode v n fun _ _ => rfl
      rw [hshape.parentOf, hp]
    · obtain ⟨hnone, -⟩ := h.last hn hpos hone
      rw [Vfs.parentOf, hnodes, if_neg]
      · exact hp
      · rintro rfl
        rw [Vfs.parentOf_of_node hn, hnone] at hp
        cases hp
  | create hs hpush hfree hd hrefs _ =>
    rw [hpush.parentOf, if_neg]
    · exact hp
    · rintro rfl
      rw [hpush.loose] at hp
      cases hp
  | detach hg hpn hlink hch hpoint ha =>
    rw [Links.parentOf_detachNode, if_neg]
    · exact hp
    · rintro rfl
      exact hc hg
  | @move _ _ d₁ d' n _ _ _ _ _ hg hs hpn hlink hpush hd' hr hbelow hn hrefs _ =>
    have hcn : c ≠ n := by
      rintro rfl
      exact hc hg
    rw [hpush.parentOf, if_neg hcn, Links.parentOf_detachNode, if_neg hcn, hp]
  | @mountRoot _ _ m n new hr _ =>
    rw [Vfs.parentOf, hr.nodes, if_neg]
    · exact hp
    · rintro rfl
      rw [Vfs.parentOf, hr.free] at hp
      cases hp
  | attach hn hdir hpn ha hm hnew hext => exact hp
  | prepare => exact hp
  | discard => exact hp

/-- The kernel root and the roots of the mounts stay. -/
theorem roots_keep (hmove : VMove gone v a v' a') (h : Sound v fun n => ext n + a n) :
    v'.rootMount = v.rootMount ∧ v'.vfsRoot = v.vfsRoot ∧
      ∀ {m r}, v.rootOf m = some r → v'.rootOf m = some r := by
  have hsame : SameMounts v v' → v'.rootMount = v.rootMount ∧ v'.vfsRoot = v.vfsRoot ∧
      ∀ {m r}, v.rootOf m = some r → v'.rootOf m = some r := by
    intro hs
    refine ⟨hs.rootMount, hs.vfsRoot, ?_⟩
    intro m r hr
    rw [hs.rootOf, hr]
  cases hmove with
  | same hs hnodes _ => exact hsame hs
  | retain hn ha => exact hsame (.setNode v _ _)
  | @release _ _ n ha =>
    have hpos : 0 < ext n + a n := by
      rw [ha, pointsTo_self]
      omega
    obtain ⟨node, hn, ⟨-, heq⟩ | ⟨-, hs, -⟩⟩ := h.release_cases hpos
    · refine hsame ?_
      rw [heq]
      exact .setNode v n _
    · exact hsame hs
  | create hs hpush hfree hd hrefs _ => exact hsame hs
  | detach hg hpn hlink hch hpoint ha => exact hsame (.detachNode v _ _ _)
  | move hg hs hpn hlink hpush hd' hr hbelow hn hrefs _ => exact hsame hs
  | mountRoot hr _ =>
    refine ⟨hr.rootMount, hr.vfsRoot, ?_⟩
    intro m r hm
    rw [hr.rootOf, if_neg]
    · exact hm
    · rintro rfl
      rw [hr.unused] at hm
      cases hm
  | attach hn hdir hpn ha hm hnew hext => exact ⟨rfl, rfl, fun hr => hr⟩
  | prepare => exact hsame ⟨rfl, rfl, rfl, rfl⟩
  | discard => exact hsame ⟨rfl, rfl, rfl, rfl⟩

/-- No mount is attached twice. -/
theorem attached_nodup (hmove : VMove gone v a v' a') (h : Sound v fun n => ext n + a n)
    (hd : (attached v).Nodup) : (attached v').Nodup := by
  have hsame : SameMounts v v' → (attached v').Nodup := by
    intro hs
    rwa [hs.attached]
  cases hmove with
  | same hs hnodes _ => exact hsame hs
  | retain hn ha => exact hsame (.setNode v _ _)
  | @release _ _ n ha =>
    have hpos : 0 < ext n + a n := by
      rw [ha, pointsTo_self]
      omega
    obtain ⟨node, hn, ⟨-, heq⟩ | ⟨-, hs, -⟩⟩ := h.release_cases hpos
    · refine hsame ?_
      rw [heq]
      exact .setNode v n _
    · exact hsame hs
  | create hs hpush hfree hd hrefs _ => exact hsame hs
  | detach hg hpn hlink hch hpoint ha => exact hsame (.detachNode v _ _ _)
  | move hg hs hpn hlink hpush hd' hr hbelow hn hrefs _ => exact hsame hs
  | mountRoot hr _ => rwa [attached, hr.rootMount, hr.table]
  | @attach _ _ n r m node hn hdir hpn ha hm hnew hext =>
    have heq : attached { v with table := v.table ++ [⟨n, m⟩] } = attached v ++ [m] := by
      simp [attached]
    rw [heq]
    exact List.nodup_append.mpr ⟨hd, List.nodup_singleton m, fun x hx y hy heq => hnew (by
      rw [List.mem_singleton] at hy
      rwa [← hy, ← heq])⟩
  | prepare => exact hsame ⟨rfl, rfl, rfl, rfl⟩
  | discard => exact hsame ⟨rfl, rfl, rfl, rfl⟩

/-- A change keeps the programs with their nodes. -/
theorem stock (hmove : VMove gone v a v' a') (h : Sound v fun n => ext n + a n) (hs : Stocked v) :
    Stocked v' ∧ Keeps v v' := by
  have hsame : SameStock v v' → Stocked v' ∧ Keeps v v' := fun hst => ⟨hst.stocked hs, hst.keeps⟩
  have hmore : ∀ {n new}, NewStock v v' n new → Stocked v' ∧ Keeps v v' := fun hst => ⟨hst.stocked hs, hst.keeps⟩
  cases hmove with
  | same _ _ hst => exact hsame hst
  | retain hn ha => exact hsame (.setNode v _ fun _ _ => rfl)
  | @release _ _ n ha =>
    refine h.release_stock ?_ hs
    rw [ha, pointsTo_self]
    omega
  | create _ _ _ _ _ hst => exact hmore hst
  | detach _ _ _ _ _ _ => exact hsame (.detachNode v _ _ _)
  | move _ _ _ _ _ _ _ _ _ _ hst => exact hsame hst
  | mountRoot _ hst => exact hmore hst
  | attach => exact hsame ⟨rfl, rfl, rfl, fun _ => rfl⟩
  | prepare => exact hs.prepare _ _
  | discard hp hfree => exact hs.discard hp hfree

end VMove

/-! ### Sequences of changes -/

/-- Elementary changes one after the other. -/
inductive VMoves (gone : NodeId → Prop) (v : Vfs) (a : NodeId → ℕ) : Vfs → (NodeId → ℕ) → Prop
  | refl : VMoves gone v a v a
  | step {v' v'' : Vfs} {a' a'' : NodeId → ℕ} : VMoves gone v a v' a' → VMove gone v' a' v'' a'' →
      VMoves gone v a v'' a''

namespace VMoves

variable {gone : NodeId → Prop} {v v' v'' : Vfs} {a a' a'' ext : NodeId → ℕ}

theorem single (h : VMove gone v a v' a') : VMoves gone v a v' a' := .step .refl h

theorem trans (h : VMoves gone v a v' a') (h' : VMoves gone v' a' v'' a'') : VMoves gone v a v'' a'' := by
  induction h' with
  | refl => exact h
  | step _ hm ih => exact .step ih hm

theorem sound (h : VMoves gone v a v' a') (hs : Sound v fun n => ext n + a n) :
    Sound v' fun n => ext n + a' n := by
  induction h with
  | refl => exact hs
  | step _ hm ih => exact hm.sound ih

theorem stock (h : VMoves gone v a v' a') (hsound : Sound v fun n => ext n + a n) (hs : Stocked v) :
    Stocked v' ∧ Keeps v v' := by
  induction h with
  | refl => exact ⟨hs, .refl v⟩
  | step hprev hm ih =>
    obtain ⟨hs', hkeep⟩ := hm.stock (hprev.sound hsound) ih.1
    exact ⟨hs', ih.2.trans hkeep⟩

end VMoves

/-! ### Contents -/

section Content

variable {gone : NodeId → Prop} {v : Vfs} {a : NodeId → ℕ} {n : NodeId} {node node' : Node}

theorem VMove.content (hn : v.node n = some node) (hf : node'.fixed = node.fixed) :
    VMove gone v a (v.setNode n fun _ => node') a := by
  have hx : node'.ware = node.ware := by
    obtain ⟨-, htype, -⟩ := Node.shape_eq_iff.mp (congrArg Prod.fst hf)
    have hexec : node'.executable = node.executable := congrArg (fun fixed => fixed.2.2.1) hf
    rw [Node.ware, htype, hexec, Node.ware]
  refine .same (.setNode v n _) (fun c => ?_) (.setNode v n fun x hx' => ?_)
  swap
  · rw [hn, Option.some.injEq] at hx'
    rw [hx, hx']
  rw [Vfs.node_setNode]
  split
  · rename_i hcn
    rw [hcn, hn, Option.map_some, Option.map_some, Option.map_some, hf]
  · rfl

variable (h : Host)

theorem fixed_cutAtOpen (node : Node) (flags : OpenFlags) : (cutAtOpen node flags).fixed = node.fixed := by
  rw [cutAtOpen]
  split <;> rfl

theorem fixed_ramfsTruncate (node : Node) (length : ℤ) :
    (ramfsTruncate h node length).1.fixed = node.fixed := by
  rw [ramfsTruncate]
  split
  · rfl
  split
  · rfl
  split
  · rfl
  dsimp only
  split
  · rfl
  · simp only [Node.fixed, Node.shape]
    split <;> rfl

theorem fixed_cbVfsTruncateNode (node : Node) (length : ℤ) :
    (cbVfsTruncateNode h node length).1.fixed = node.fixed := by
  rw [cbVfsTruncateNode]
  split
  · rfl
  split
  · rfl
  split
  · rfl
  split
  · rfl
  · exact fixed_ramfsTruncate h node length

theorem fixed_nodeRead (file : OpenFile) (node : Node) (count : ℕ) :
    (nodeRead h file node count).2.1.fixed = node.fixed := by
  rw [nodeRead]
  split
  · rfl
  split
  · rfl
  split
  · rfl
  split
  · rfl
  · rfl

theorem fixed_prepared (node : Node) (start needed : ℕ) : (prepared h node start needed).fixed = node.fixed := by
  rw [prepared]
  by_cases h₁ : node.capacity < needed
  · simp only [if_pos h₁]
    split <;> rfl
  · simp only [if_neg h₁]
    split <;> rfl

theorem fixed_nodeWrite (file : OpenFile) (node : Node) (buffer : Bytes) :
    (nodeWrite h file node buffer).2.1.fixed = node.fixed := by
  rw [nodeWrite]
  split
  · rfl
  split
  · rfl
  split
  · rfl
  dsimp only
  split
  · rfl
  split
  · rfl
  · exact fixed_prepared h node _ _

theorem fixed_nodeTruncate (file : OpenFile) (node : Node) (length : ℤ) :
    (nodeTruncate h file node length).1.fixed = node.fixed := by
  have hf := fixed_cbVfsTruncateNode h node length
  rw [nodeTruncate]
  split
  · rfl
  · split <;> rename_i heq <;> rwa [heq] at hf

end Content

/-! ### Creation -/

section Create

variable {v : Vfs} {d : NodeId} {dir : Node} {name : Bytes}

theorem sameMounts_nodeCreate (h : Host) (v : Vfs) (mount : MountId) (parent : Option NodeId)
    (name : Bytes) (type : NodeType) (mode : ℕ) :
    SameMounts v (nodeCreate h v mount parent name type mode).1 := by
  cases parent <;> exact ⟨rfl, rfl, rfl, rfl⟩

/-- The node `node_create` makes below `d`. -/
def createdNode (h : Host) (v : Vfs) (d : NodeId) (dir : Node) (name : Bytes) (type : NodeType)
    (mode : ℕ) : Node :=
  freshNode dir.mount (some d) name type mode (v.nextInode + 1) h.wallClock dir.children

theorem nodeCreate_pushed (h : Host) (hd : v.node d = some dir) (hty : dir.type = .directory)
    (type : NodeType) (mode : ℕ) (hname : goodName name)
    (hfree : ∀ {c node}, v.node c = some node → node.parent = some d → node.name ≠ name) :
    Links.Pushed v (nodeCreate h v dir.mount (some d) name type mode).1 d v.nodes.next dir
      (createdNode h v d dir name type mode) := by
  have hne : v.nodes.next ≠ d := Nat.ne_of_gt (Vfs.lt_next_of_node hd)
  have hnext : v.node v.nodes.next = none := Heap.get_next _
  have hnodes : ∀ c, (nodeCreate h v dir.mount (some d) name type mode).1.node c =
      if c = d then some { dir with children := some v.nodes.next }
      else if c = v.nodes.next then some (createdNode h v d dir name type mode) else v.node c := by
    intro c
    rw [nodeCreate]
    simp only [Option.bind_some, Vfs.childrenOf_of_node hd]
    rw [Vfs.node_setNode]
    by_cases hcd : c = d
    · rw [if_pos hcd, if_pos hcd, hcd, Vfs.node]
      rw [Heap.get_alloc_of_ne _ _ (Ne.symm hne)]
      rw [Vfs.node] at hd
      rw [hd]
      rfl
    · rw [if_neg hcd, if_neg hcd, Vfs.node, Heap.get_alloc]
      rfl
  refine ⟨hd, hty, hne, ?_, ?_, ?_, ?_, rfl, rfl, rfl, hname, hfree, ?_, fun _ => rfl⟩
  · rw [Vfs.parentOf, hnext]
    rfl
  · rw [hnodes, if_neg hne, if_pos rfl]
  · rw [hnodes, if_pos rfl]
  · intro c hcn hcd
    rw [hnodes, if_neg hcd, if_neg hcn]
  · intro old ho
    rw [hnext] at ho
    cases ho

theorem nodeCreate_stock (h : Host) (hd : v.node d = some dir) (hty : dir.type = .directory)
    {type : NodeType} (hplain : type ≠ .executable) (mode : ℕ) (hname : goodName name)
    (hfree : ∀ {c node}, v.node c = some node → node.parent = some d → node.name ≠ name) :
    NewStock v (nodeCreate h v dir.mount (some d) name type mode).1 v.nodes.next
      (createdNode h v d dir name type mode) := by
  have hpush := nodeCreate_pushed h hd hty type mode hname hfree
  refine ⟨rfl, rfl, rfl, ?_, fun c => hpush.ware c, fun hx => absurd hx hplain, fun hp => by cases hp⟩
  show ((v.nodes.alloc _).modify d _).next = v.nodes.next + 1
  rw [Heap.next_modify, Heap.next_alloc]

/-- `node_create` below a node of the tree is one change. -/
theorem nodeCreate_move {gone : NodeId → Prop} {a : NodeId → ℕ} (h : Host) (hd : v.node d = some dir)
    (hty : dir.type = .directory) (hroot : dir.parent ≠ none ∨ v.rootOf dir.mount = some d)
    {type : NodeType} (hplain : type ≠ .executable) (mode : ℕ) (hname : goodName name)
    (hfree : ∀ {c node}, v.node c = some node → node.parent = some d → node.name ≠ name) :
    VMove gone v a (nodeCreate h v dir.mount (some d) name type mode).1 a :=
  .create (sameMounts_nodeCreate h v _ _ _ _ _) (nodeCreate_pushed h hd hty type mode hname hfree)
    (Heap.get_next _) hroot rfl (nodeCreate_stock h hd hty hplain mode hname hfree)

theorem ramfsCreate_cases {h : Host} {type : NodeType} {mode : ℕ} {v' : Vfs} {n : NodeId}
    (hc : ramfsCreate h v d name type mode = .ok (v', n)) :
    ∃ dir, v.node d = some dir ∧ dir.type = .directory ∧ findChild v d name = none ∧
      n = v.nodes.next ∧ v' = (nodeCreate h v dir.mount (some d) name type mode).1 := by
  rw [ramfsCreate] at hc
  cases hd : v.node d with
  | none => simp [hd] at hc
  | some dir =>
    simp only [hd] at hc
    obtain ⟨hty, hc⟩ := ok_of_guard hc
    obtain ⟨-, hc⟩ := ok_of_guard hc
    obtain ⟨-, hc⟩ := ok_of_guard hc
    obtain ⟨hfind, hc⟩ := ok_of_guard hc
    obtain ⟨-, hc⟩ := ok_of_guard hc
    rw [Except.ok.injEq, Prod.mk.injEq] at hc
    refine ⟨dir, rfl, not_not.mp hty, ?_, ?_, ?_⟩
    · simpa using hfind
    · exact hc.2.symm
    · exact hc.1.symm

end Create

/-! ### Removal -/

section Remove

variable {gone : NodeId → Prop} {v : Vfs} {a ext : NodeId → ℕ} {n d : NodeId} {node : Node}

theorem unlinkNode_of_parent (hl : Links v) (hp : v.parentOf n = some d) :
    ∃ link, linkTo v d n = some link ∧
      unlinkNode v n = (ramfsNodeRelease (detachNode v d n link) n, .ok ()) := by
  obtain ⟨dir, l₁, l₂, -, -, -, hlink⟩ := hl.linkTo_eq hp
  refine ⟨_, hlink, ?_⟩
  rw [unlinkNode]
  simp only [hp, hlink]

/-- Unlinking a node without children: it is detached, and the reference of its entry given back. -/
theorem unlinkNode_moves (h : Sound v fun c => ext c + a c) (hn : v.node n = some node)
    (hch : node.children = none) (hpoint : ∀ e ∈ v.table, e.mountPoint ≠ n) (hg : gone n) :
    VMoves gone v a (unlinkNode v n).1 a := by
  cases hp : v.parentOf n with
  | none =>
    rw [unlinkNode]
    simp only [hp]
    exact .refl
  | some d =>
    obtain ⟨link, hlink, heq⟩ := unlinkNode_of_parent h.tree.links hp
    rw [heq]
    have hdet : VMove gone v a (detachNode v d n link) fun c => a c + pointsTo (some n) c :=
      .detach hg hp hlink (by rw [Vfs.childrenOf_of_node hn, hch]) hpoint fun _ => rfl
    exact .step (.single hdet) (.release fun _ => rfl)

/-- What unlinking leaves of the other nodes. -/
theorem unlinkNode_nodes (h : Sound v ext) (hn : v.node n = some node) (hch : node.children = none)
    (hpoint : ∀ e ∈ v.table, e.mountPoint ≠ n) (hp : v.parentOf n = some d) :
    ∃ link, SameMounts v (unlinkNode v n).1 ∧ (unlinkNode v n).1.parentOf n = none ∧
      ∀ c, c ≠ n → (unlinkNode v n).1.node c = (detachNode v d n link).node c := by
  obtain ⟨link, hlink, heq⟩ := unlinkNode_of_parent h.tree.links hp
  have hdet : Sound (detachNode v d n link) fun c => ext c + pointsTo (some n) c :=
    h.detach hp hlink (by rw [Vfs.childrenOf_of_node hn, hch]) hpoint fun _ => rfl
  have hpos : 0 < ext n + pointsTo (some n) n := by
    rw [pointsTo_self]
    omega
  have hloose : (detachNode v d n link).parentOf n = none := by
    rw [Links.parentOf_detachNode, if_pos rfl]
  refine ⟨link, ?_⟩
  rw [heq]
  obtain ⟨x, hx, ⟨-, hrel⟩ | ⟨-, hs, hnodes⟩⟩ := hdet.release_cases hpos
  · refine ⟨?_, ?_, ?_⟩
    · rw [hrel]
      exact (SameMounts.detachNode v d n link).trans (.setNode _ n _)
    · have hshape : SameShape (detachNode v d n link) (ramfsNodeRelease (detachNode v d n link) n) := by
        rw [hrel]
        exact .setNode _ n fun _ _ => rfl
      rw [hshape.parentOf, hloose]
    · intro c hcn
      rw [hrel, Vfs.node_setNode_of_ne _ _ hcn]
  · refine ⟨(SameMounts.detachNode v d n link).trans hs, ?_, ?_⟩
    · rw [Vfs.parentOf, hnodes, if_pos rfl]
      rfl
    · intro c hcn
      rw [hnodes, if_neg hcn]

end Remove

/-! ### Moving -/

section Rename

variable {gone : NodeId → Prop} {v : Vfs} {a ext : NodeId → ℕ} {n d d' : NodeId} {node dir₀ : Node}
  {newName : Bytes} {link : Link NodeId}

theorem node_setLink_isSome (v : Vfs) (d : NodeId) (next : Option NodeId) (link : Link NodeId)
    (c : NodeId) : ((setLink v d next link).node c).isSome = (v.node c).isSome := by
  cases link <;> (rw [setLink, Vfs.node_setNode]; split <;> simp)

/-- `ramfs_rename` after the search for the link. -/
def relinked (h : Host) (v : Vfs) (n d' : NodeId) (newName : Bytes) (d : NodeId) (link : Link NodeId) :
    Vfs :=
  let w := setLink v d (v.nextOf n) link
  let w₁ := w.setNode n fun node => { node with nextSibling := w.childrenOf d' }
  let w₂ := w₁.setNode d' fun node => { node with children := some n }
  w₂.setNode n fun node =>
    { node with parent := some d', name := newName, ctime := h.wallClock }

theorem ramfsRename_of_parent (h : Host) (d' : NodeId) (newName : Bytes) (hl : Links v) (hp : v.parentOf n = some d) :
    ∃ link, linkTo v d n = some link ∧
      ramfsRename h v n d' newName = (relinked h v n d' newName d link, .ok ()) := by
  obtain ⟨dir, l₁, l₂, -, -, -, hlink⟩ := hl.linkTo_eq hp
  refine ⟨_, hlink, ?_⟩
  rw [ramfsRename]
  simp only [hp, hlink]
  rfl

/-- Relinking a node is detaching it and pushing it onto the list of `d'`. -/
theorem relinked_pushed (h : Host) (d : NodeId) (link : Link NodeId) (hn : v.node n = some node) (hd' : v.node d' = some dir₀)
    (hty : dir₀.type = .directory) (hne : n ≠ d') (hmount : node.mount = dir₀.mount)
    (hname : goodName newName)
    (hfree : ∀ {c x}, v.node c = some x → c ≠ n → x.parent = some d' → x.name ≠ newName) :
    ∃ dir new, Links.Pushed (detachNode v d n link) (relinked h v n d' newName d link) d' n dir new ∧
      new.references = node.references := by
  set w := setLink v d (v.nextOf n) link with hw
  obtain ⟨wn, hwn⟩ : ∃ wn, w.node n = some wn := by
    rw [← Option.isSome_iff_exists, hw, node_setLink_isSome, hn]
    rfl
  have hdetn : (detachNode v d n link).node n = some { wn with parent := none, nextSibling := none } := by
    rw [detachNode, Vfs.node_setNode_self, ← hw, hwn]
    rfl
  have hdeto : ∀ {c}, c ≠ n → (detachNode v d n link).node c = w.node c := by
    intro c hc
    rw [detachNode, Vfs.node_setNode_of_ne _ _ hc]
  obtain ⟨dir, hwd⟩ : ∃ dir, w.node d' = some dir := by
    rw [← Option.isSome_iff_exists, hw, node_setLink_isSome, hd']
    rfl
  obtain ⟨y, hy, hym, hyt, -, -, -⟩ := Tree.node_of_detachNode ((hdeto (Ne.symm hne)).trans hwd)
  rw [hd', Option.some.injEq] at hy
  subst hy
  obtain ⟨z, hz, hzm, -, -, -, hzr⟩ := Tree.node_of_detachNode hdetn
  rw [hn, Option.some.injEq] at hz
  subst hz
  refine ⟨dir, { wn with
      nextSibling := dir.children
      parent := some d'
      name := newName
      ctime := h.wallClock }, ⟨(hdeto (Ne.symm hne)).trans hwd, hyt.trans hty, hne, ?_, ?_, ?_, ?_, rfl,
    rfl, ?_, hname, ?_, ?_, ?_⟩, hzr⟩
  · rw [Links.parentOf_detachNode, if_pos rfl]
  · rw [relinked, Vfs.node_setNode_self, Vfs.node_setNode_of_ne _ _ hne, Vfs.node_setNode_self, ← hw, hwn,
      Vfs.childrenOf_of_node hwd]
    rfl
  · rw [relinked, Vfs.node_setNode_of_ne _ _ (Ne.symm hne), Vfs.node_setNode_self,
      Vfs.node_setNode_of_ne _ _ (Ne.symm hne), ← hw, hwd]
    rfl
  · intro c hcn hcd
    rw [relinked, Vfs.node_setNode_of_ne _ _ hcn, Vfs.node_setNode_of_ne _ _ hcd,
      Vfs.node_setNode_of_ne _ _ hcn, hdeto hcn, hw]
  · exact hzm.trans (hmount.trans hym.symm)
  · intro c x hc hpx
    have hdet := Links.node_detachNode v d n link c
    rw [hc] at hdet
    obtain ⟨x₀, hx₀, heq⟩ := Option.map_eq_some_iff.mp hdet.symm
    subst heq
    by_cases hcn : c = n
    · simp [hcn] at hpx
    · simp only [if_neg hcn] at hpx
      have hother := hfree hx₀ hcn hpx
      exact hother
  · intro old ho
    rw [hdetn, Option.some.injEq] at ho
    subst ho
    exact ⟨rfl, rfl, rfl⟩
  · intro ho
    rw [hdetn] at ho
    cases ho

theorem sameMounts_relinked (h : Host) (v : Vfs) (n d' : NodeId) (newName : Bytes) (d : NodeId)
    (link : Link NodeId) : SameMounts v (relinked h v n d' newName d link) := by
  cases link <;> exact ⟨rfl, rfl, rfl, rfl⟩

theorem sameStock_relinked (h : Host) (v : Vfs) (n d' : NodeId) (newName : Bytes) (d : NodeId)
    (link : Link NodeId) : SameStock v (relinked h v n d' newName d link) := by
  have hlink := SameStock.setLink v d (v.nextOf n) link
  have hnext := hlink.trans (.setNode _ n (f := fun node =>
    { node with nextSibling := (setLink v d (v.nextOf n) link).childrenOf d' }) fun _ _ => rfl)
  have hchild := hnext.trans (.setNode _ d' (f := fun node => { node with children := some n }) fun _ _ => rfl)
  exact hchild.trans (.setNode _ n fun _ _ => rfl)

/-- `ramfs_rename` is one change. -/
theorem ramfsRename_moves (h : Host) (hl : Links v) (hn : v.node n = some node)
    (hd' : v.node d' = some dir₀) (hty : dir₀.type = .directory)
    (hroot : dir₀.parent ≠ none ∨ v.rootOf dir₀.mount = some d') (hmount : node.mount = dir₀.mount)
    (hbelow : ¬ Climb v.parentOf d' n) (hname : goodName newName)
    (hfree : ∀ {c x}, v.node c = some x → c ≠ n → x.parent = some d' → x.name ≠ newName)
    (hg : gone n) :
    VMoves gone v a (ramfsRename h v n d' newName).1 a := by
  have hne : n ≠ d' := by
    rintro rfl
    exact hbelow .refl
  cases hp : v.parentOf n with
  | none =>
    rw [ramfsRename]
    simp only [hp]
    exact .refl
  | some d =>
    obtain ⟨link, hlink, heq⟩ := ramfsRename_of_parent h d' newName hl hp
    rw [heq]
    obtain ⟨dir, new, hpush, hrefs⟩ := relinked_pushed h d link hn hd' hty hne hmount
      hname hfree
    exact .single (.move hg (sameMounts_relinked h v n d' newName d link) hp hlink hpush hd' hroot
      hbelow hn hrefs (sameStock_relinked h v n d' newName d link))

end Rename

/-! ### New mounts -/

section MountTree

variable {gone : NodeId → Prop} {a ext : NodeId → ℕ}

/-- The state of `cb_ramfs_mount_create` when it has made the root of the mount. -/
def withMountRoot (h : Host) (v : Vfs) : Vfs :=
  { v with
    nodes := v.nodes.alloc
      (freshNode v.mounts.next none [] .directory 0o755 (v.nextInode + 1) h.wallClock none)
    nextInode := v.nextInode + 1
    nextDevice := v.nextDevice + 1
    mounts := v.mounts.alloc ⟨v.nodes.next, v.nextDevice + 1⟩ }

theorem newRoot_withMountRoot (h : Host) (v : Vfs) :
    NewRoot v (withMountRoot h v) v.mounts.next v.nodes.next
      (freshNode v.mounts.next none [] .directory 0o755 (v.nextInode + 1) h.wallClock none) := by
  refine ⟨Heap.get_next _, ?_, ?_, ?_, rfl, rfl, rfl, rfl, rfl, rfl, rfl, rfl, rfl⟩
  · intro c
    exact Heap.get_alloc _ _ _
  · rw [Vfs.rootOf, Heap.get_next]
    rfl
  · intro m'
    rw [Vfs.rootOf, withMountRoot, Heap.get_alloc, Vfs.rootOf]
    split <;> rfl

/-- A directory of a tree under construction, with the names it has so far. -/
structure Growing (v : Vfs) (d : NodeId) (m : MountId) (names : List Bytes) : Prop where
  dir : ∃ dir, v.node d = some dir ∧ dir.type = .directory ∧ dir.mount = m ∧
    (dir.parent ≠ none ∨ v.rootOf dir.mount = some d)
  names : ∀ {c x}, v.node c = some x → x.parent = some d → x.name ∈ names

/-- One more directory, below `d`. -/
theorem Growing.create (gone : NodeId → Prop) (a : NodeId → ℕ) {v : Vfs} {d : NodeId} {m : MountId} {names : List Bytes} (h : Host)
    (hl : Links v) (hg : Growing v d m names) (name : Bytes) (mode : ℕ) (hname : goodName name)
    (hnew : name ∉ names) :
    VMove gone v a (nodeCreate h v m (some d) name .directory mode).1 a ∧
      Growing (nodeCreate h v m (some d) name .directory mode).1 d m (name :: names) ∧
      Growing (nodeCreate h v m (some d) name .directory mode).1 v.nodes.next m [] := by
  obtain ⟨dir, hd, hty, rfl, hroot⟩ := hg.dir
  have hfree : ∀ {c x}, v.node c = some x → x.parent = some d → x.name ≠ name := by
    rintro c x hc hx rfl
    exact hnew (hg.names hc hx)
  have hpush := nodeCreate_pushed h hd hty .directory mode hname hfree
  have hs := sameMounts_nodeCreate h v dir.mount (some d) name .directory mode
  refine ⟨nodeCreate_move h hd hty hroot (by decide) mode hname hfree, ⟨?_, ?_⟩, ⟨?_, ?_⟩⟩
  · exact ⟨_, hpush.newDir, hty, rfl, by rwa [hs.rootOf]⟩
  · intro c x hc hx
    by_cases hcn : c = v.nodes.next
    · subst hcn
      rw [hpush.newNode, Option.some.injEq] at hc
      subst hc
      exact List.mem_cons_self
    · obtain ⟨y, hy, -, -, hna, hpar, -⟩ := hpush.keeps hcn hc
      rw [hna]
      exact List.mem_cons_of_mem _ (hg.names hy (by rw [← hpar, hx]))
  · exact ⟨_, hpush.newNode, rfl, rfl, .inl (by simp [createdNode, freshNode])⟩
  · intro c x hc hx
    -- nothing is below a node that was free
    exfalso
    have hpar : v.parentOf c = some v.nodes.next := by
      have hpc := hpush.parentOf c
      rw [Vfs.parentOf_of_node hc, hx] at hpc
      split at hpc
      · cases hpc
        exact absurd rfl hpush.ne
      · exact hpc.symm
    obtain ⟨dir', hd', -⟩ := hl.parent hpar
    rw [Vfs.node, Heap.get_next] at hd'
    cases hd'

theorem ramfsMountTree_moves (h : Host) {v : Vfs} (hv : Sound v fun n => ext n + a n) :
    VMoves gone v a (ramfsMountTree h v).1 a ∧ (ramfsMountTree h v).1.table = v.table ∧
      (ramfsMountTree h v).1.rootOf (ramfsMountTree h v).2 = some v.nodes.next := by
  set m := v.mounts.next
  set root := v.nodes.next
  have hr := newRoot_withMountRoot h v
  have hst : NewStock v (withMountRoot h v) v.nodes.next
      (freshNode v.mounts.next none [] .directory 0o755 (v.nextInode + 1) h.wallClock none) := by
    refine ⟨rfl, rfl, rfl, Heap.next_alloc _ _, fun c => ?_, fun hx => (by cases hx), fun hp => by cases hp⟩
    rw [hr.nodes]
    split <;> rfl
  have hm₁ : VMove gone v a (withMountRoot h v) a := .mountRoot hr hst
  have hs₁ := hm₁.sound hv
  have hg₁ : Growing (withMountRoot h v) root m [] := by
    refine ⟨⟨_, by rw [hr.nodes, if_pos rfl], rfl, rfl, .inr ?_⟩, ?_⟩
    · rw [hr.rootOf]
      exact if_pos rfl
    · intro c x hc hx
      exfalso
      rw [hr.nodes] at hc
      split at hc
      · cases hc
        cases hx
      · obtain ⟨dir', hd', -⟩ := hv.tree.links.parent (by rw [Vfs.parentOf_of_node hc, hx])
        rw [Vfs.node, Heap.get_next] at hd'
        cases hd'
  obtain ⟨hm₂, hg₂, -⟩ := hg₁.create gone a h hs₁.tree.links binName 0o755
    (by decide) (by simp)
  have hs₂ := hm₂.sound hs₁
  obtain ⟨hm₃, hg₃, -⟩ := hg₂.create gone a h hs₂.tree.links tmpName 0o777
    (by decide) (by decide)
  have hs₃ := hm₃.sound hs₂
  obtain ⟨hm₄, hg₄, hhome⟩ := hg₃.create gone a h hs₃.tree.links homeName 0o755
    (by decide) (by decide)
  have hs₄ := hm₄.sound hs₃
  obtain ⟨hm₅, -, -⟩ := hhome.create gone a h hs₄.tree.links userName 0o755
    (by decide) (by simp)
  refine ⟨((((VMoves.single hm₁).step hm₂).step hm₃).step hm₄).step hm₅, rfl, ?_⟩
  have hroot := hr.rootOf m
  rw [if_pos rfl] at hroot
  exact hroot

/-- `cb_ramfs_mount_create`, also when it fails. -/
theorem cbRamfsMountCreate_moves (h : Host) {v : Vfs} (hv : Sound v fun n => ext n + a n) :
    VMoves gone v a (cbRamfsMountCreate h v).1 a := by
  rw [cbRamfsMountCreate]
  split
  · exact .refl
  split
  · exact .single (.same ⟨rfl, rfl, rfl, rfl⟩ (fun _ => rfl) ⟨rfl, rfl, rfl, fun _ => rfl⟩)
  · exact (ramfsMountTree_moves h hv).1

end MountTree

end CannedBsd
