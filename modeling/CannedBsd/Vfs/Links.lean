import CannedBsd.Vfs.Path

/-!
# Sibling lists

The children of a directory form a chain of sibling pointers, and the chain of a directory holds
exactly the nodes whose parent pointer names it. `Links` states this together with what it says
about names: cutting a node out of its list and pushing a node onto a list keep it.

* `Links.collect_children`: the list a walk over the children visits.
* `Links.detach`, `Pushed.links`: cutting out and pushing keep the lists of all directories.
* `findChild_some`, `findChild_none`: what a search for a name finds.
-/

namespace CannedBsd

open CannedBsd.Lib

/-- What a node offers to `exec`. -/
def Node.ware (node : Node) : NodeType × Option ProgramId := (node.type, node.executable)

/-! ### Reading a changed node -/

namespace Vfs

variable (v : Vfs)

theorem node_setNode (n : NodeId) (f : Node → Node) (c : NodeId) :
    (v.setNode n f).node c = if c = n then (v.node c).map f else v.node c :=
  Heap.get_modify _ _ _ _

theorem node_setNode_self (n : NodeId) (f : Node → Node) :
    (v.setNode n f).node n = (v.node n).map f :=
  Heap.get_modify_self _ _ _

theorem node_setNode_of_ne {n c : NodeId} (f : Node → Node) (hc : c ≠ n) :
    (v.setNode n f).node c = v.node c :=
  Heap.get_modify_of_ne _ _ hc

variable {v}

theorem parentOf_of_node {n : NodeId} {node : Node} (hn : v.node n = some node) :
    v.parentOf n = node.parent := by
  simp [parentOf, hn]

theorem nextOf_of_node {n : NodeId} {node : Node} (hn : v.node n = some node) :
    v.nextOf n = node.nextSibling := by
  simp [nextOf, hn]

theorem childrenOf_of_node {n : NodeId} {node : Node} (hn : v.node n = some node) :
    v.childrenOf n = node.children := by
  simp [childrenOf, hn]

theorem node_of_parentOf {n d : NodeId} (hp : v.parentOf n = some d) :
    ∃ node, v.node n = some node ∧ node.parent = some d := by
  simpa [parentOf, Option.bind_eq_some_iff] using hp

theorem lt_next_of_node {n : NodeId} {node : Node} (hn : v.node n = some node) : n < v.nodes.next :=
  Heap.lt_next_of_get hn

end Vfs

/-! ### The invariant -/

/-- A name a directory entry can have. -/
def goodName (name : Bytes) : Prop := name ≠ [] ∧ name ≠ [dot] ∧ name ≠ [dot, dot] ∧ slash ∉ name

instance (name : Bytes) : Decidable (goodName name) :=
  inferInstanceAs (Decidable (name ≠ [] ∧ name ≠ [dot] ∧ name ≠ [dot, dot] ∧ slash ∉ name))

/-- The sibling lists agree with the parent pointers, and names identify children. -/
structure Links (v : Vfs) : Prop where
  children : ∀ {d dir}, v.node d = some dir →
    ∃ l, Chain v.nextOf dir.children l ∧ ∀ c, c ∈ l ↔ v.parentOf c = some d
  parent : ∀ {c d}, v.parentOf c = some d → ∃ dir, v.node d = some dir ∧ dir.type = .directory
  mount : ∀ {c node d dir}, v.node c = some node → node.parent = some d → v.node d = some dir →
    dir.mount = node.mount
  name : ∀ {c node d}, v.node c = some node → node.parent = some d → goodName node.name
  unique : ∀ {c c' node node' d}, v.node c = some node → v.node c' = some node' →
    node.parent = some d → node'.parent = some d → node.name = node'.name → c = c'
  loose : ∀ {c node}, v.node c = some node → node.parent = none → node.nextSibling = none

namespace Links

variable {v : Vfs} {c d n : NodeId} {dir node : Node}

/-- A chain of children is no longer than the number of addresses, so the bounded walks see all
of it. -/
theorem length_le {l : List NodeId} (hc : Chain v.nextOf dir.children l)
    (hm : ∀ c, c ∈ l ↔ v.parentOf c = some d) : l.length ≤ v.nodes.next := by
  refine length_le_of_lt hc.nodup fun c hc => ?_
  obtain ⟨node, hn, -⟩ := Vfs.node_of_parentOf ((hm c).mp hc)
  exact Vfs.lt_next_of_node hn

/-- The list a walk over the children visits. -/
theorem collect_children (hl : Links v) (hd : v.node d = some dir) :
    Chain v.nextOf dir.children (collect v.nextOf v.nodes.next dir.children) ∧
      ∀ c, c ∈ collect v.nextOf v.nodes.next dir.children ↔ v.parentOf c = some d := by
  obtain ⟨l, hc, hm⟩ := hl.children hd
  rw [collect_eq hc (length_le hc hm)]
  exact ⟨hc, hm⟩

/-- The sibling behind a child is a child of the same directory. -/
theorem next_parent (hl : Links v) (hp : v.parentOf c = some d) (hn : v.nextOf c = some n) :
    v.parentOf n = some d := by
  obtain ⟨dir, hd, -⟩ := hl.parent hp
  obtain ⟨l, hc, hm⟩ := hl.children hd
  exact (hm n).mp (hc.next_mem ((hm c).mpr hp) hn)

/-- A sibling pointer leads to a live node with the same parent. -/
theorem next_live (hl : Links v) (hn : v.nextOf c = some n) :
    ∃ d, v.parentOf c = some d ∧ v.parentOf n = some d := by
  cases hc : v.node c with
  | none => simp [Vfs.nextOf, hc] at hn
  | some node =>
    cases hp : node.parent with
    | none =>
      rw [Vfs.nextOf_of_node hc, hl.loose hc hp] at hn
      cases hn
    | some d =>
      have hpc : v.parentOf c = some d := by rw [Vfs.parentOf_of_node hc, hp]
      exact ⟨d, hpc, hl.next_parent hpc hn⟩

/-- The search for the link to a child finds the place in front of it. -/
theorem linkTo_eq (hl : Links v) (hp : v.parentOf n = some d) :
    ∃ dir l₁ l₂, v.node d = some dir ∧ Chain v.nextOf dir.children (l₁ ++ n :: l₂) ∧
      (∀ c, c ∈ l₁ ++ n :: l₂ ↔ v.parentOf c = some d) ∧
      linkTo v d n = some (linkBehind .head l₁) := by
  obtain ⟨dir, hd, -⟩ := hl.parent hp
  obtain ⟨l, hc, hm⟩ := hl.children hd
  obtain ⟨l₁, l₂, rfl⟩ := List.append_of_mem ((hm n).mpr hp)
  refine ⟨dir, l₁, l₂, hd, hc, hm, ?_⟩
  rw [linkTo, Vfs.childrenOf_of_node hd]
  exact findLink_eq hc (length_le hc hm)

/-! ### Cutting out -/

/-- The nodes after `detachNode`: only links change. -/
theorem node_detachNode (v : Vfs) (d n : NodeId) (link : Link NodeId) (c : NodeId) :
    (detachNode v d n link).node c = (v.node c).map fun node =>
      { node with
        parent := if c = n then none else node.parent
        nextSibling := if c = n then none else if link = .after c then v.nextOf n else node.nextSibling
        children := if link = .head ∧ c = d then v.nextOf n else node.children } := by
  have hset : (setLink v d (v.nextOf n) link).node c = (v.node c).map fun node =>
      { node with
        nextSibling := if link = .after c then v.nextOf n else node.nextSibling
        children := if link = .head ∧ c = d then v.nextOf n else node.children } := by
    cases link with
    | head =>
      rw [setLink, Vfs.node_setNode]
      by_cases hcd : c = d
      · simp [hcd]
      · cases v.node c <;> simp [hcd]
    | after p =>
      rw [setLink, Vfs.node_setNode]
      by_cases hcp : c = p
      · subst hcp
        simp
      · cases v.node c <;> simp [hcp, Ne.symm hcp]
  rw [detachNode, Vfs.node_setNode, hset]
  by_cases hcn : c = n
  · rw [if_pos hcn, Option.map_map]
    cases v.node c <;> simp [hcn]
  · rw [if_neg hcn]
    cases v.node c <;> simp [hcn]

section Detach

variable {link : Link NodeId}

theorem parentOf_detachNode (c : NodeId) :
    (detachNode v d n link).parentOf c = if c = n then none else v.parentOf c := by
  rw [Vfs.parentOf, node_detachNode, Vfs.parentOf]
  cases v.node c with
  | none => simp
  | some node => simp

theorem nextOf_detachNode (c : NodeId) :
    (detachNode v d n link).nextOf c =
      if c = n then none else if link = .after c ∧ (v.node c).isSome then v.nextOf n else v.nextOf c := by
  rw [Vfs.nextOf, node_detachNode, Vfs.nextOf, Vfs.nextOf]
  cases v.node c with
  | none => simp
  | some node => simp

/-- Cutting a node out of its list keeps the lists of all directories. -/
theorem detach (hl : Links v) (hp : v.parentOf n = some d) (hlink : linkTo v d n = some link) :
    Links (detachNode v d n link) := by
  obtain ⟨dir, l₁, l₂, hd, hch, hmem, hfound⟩ := hl.linkTo_eq hp
  rw [hfound, Option.some.injEq] at hlink
  subst hlink
  have hnd := hch.nodup
  set link := linkBehind Link.head l₁ with hlk
  -- the node in front of `n`, if there is one, is a child of `d` too
  have hafter : ∀ p, link = .after p → p ∈ l₁ := by
    intro p hp
    rw [hlk, linkBehind] at hp
    cases hlast : l₁.getLast? with
    | none => simp [hlast] at hp
    | some q =>
      simp only [hlast, Link.after.injEq] at hp
      subst hp
      exact List.mem_of_getLast? hlast
  have hkeep : ∀ {c node'}, (detachNode v d n link).node c = some node' →
      ∃ node, v.node c = some node ∧ node'.type = node.type ∧ node'.mount = node.mount ∧
        node'.name = node.name ∧ node'.parent = (if c = n then none else node.parent) ∧
        node'.children = (if link = .head ∧ c = d then v.nextOf n else node.children) ∧
        node'.nextSibling = (if c = n then none else
          if link = .after c then v.nextOf n else node.nextSibling) := by
    intro c node' hc
    rw [node_detachNode] at hc
    obtain ⟨node, hn, rfl⟩ := Option.map_eq_some_iff.mp hc
    exact ⟨node, hn, rfl, rfl, rfl, rfl, rfl, rfl⟩
  refine ⟨?_, ?_, ?_, ?_, ?_, ?_⟩
  · intro x node' hx
    obtain ⟨node, hn, -, -, -, -, hchild, -⟩ := hkeep hx
    by_cases hxd : x = d
    · subst hxd
      rw [hd, Option.some.injEq] at hn
      subst hn
      refine ⟨l₁ ++ l₂, ?_, ?_⟩
      · -- the pointer in front of `n` skips it
        cases l₁ using List.reverseRecOn with
        | nil =>
          have hlink : link = .head := by simp [hlk, linkBehind]
          rw [hchild, if_pos ⟨hlink, rfl⟩]
          rw [hch.eq_some] at hch
          refine hch.splice_head fun b hb => ?_
          have hbn : b ≠ n := by
            rintro rfl
            simp only [List.nil_append, List.nodup_cons] at hnd
            exact hnd.1 hb
          rw [nextOf_detachNode, if_neg hbn, if_neg (by simp [hlink])]
        | append_singleton l₁ p =>
          have hlink : link = .after p := by simp [hlk, linkBehind]
          have hpn : p ≠ n := by
            rintro rfl
            simp [List.nodup_append] at hnd
          have hplive : (v.node p).isSome := by
            obtain ⟨pn, hpn', -⟩ := Vfs.node_of_parentOf ((hmem p).mp (by simp))
            simp [hpn']
          rw [hchild, if_neg (by simp [hlink]), List.append_assoc]
          rw [List.append_assoc] at hch
          refine hch.splice_after ?_ fun b hb => ?_
          · rw [nextOf_detachNode, if_neg hpn, if_pos ⟨hlink, hplive⟩]
          · have hbn : b ≠ n ∧ b ≠ p := by
              simp only [List.nodup_append, List.nodup_cons, List.mem_append, List.mem_cons] at hnd
              constructor
              · rintro rfl
                rcases List.mem_append.mp hb with hb | hb
                · exact hnd.2.2 b (.inl hb) b (.inl rfl) rfl
                · exact hnd.2.1.1 hb
              · rintro rfl
                rcases List.mem_append.mp hb with hb | hb
                · exact hnd.1.2.2 b hb b (.inl rfl) rfl
                · exact hnd.2.2 b (.inr (.inl rfl)) b (.inr hb) rfl
            rw [nextOf_detachNode, if_neg hbn.1, if_neg]
            rw [hlink]
            rintro ⟨heq, -⟩
            exact hbn.2 (Link.after.inj heq).symm
      · intro c
        rw [parentOf_detachNode]
        by_cases hcn : c = n
        · subst hcn
          simp only [if_true, reduceCtorEq, iff_false]
          intro hc
          simp only [List.nodup_append, List.nodup_cons, List.mem_cons] at hnd
          rcases List.mem_append.mp hc with hc | hc
          · exact hnd.2.2 c hc c (.inl rfl) rfl
          · exact hnd.2.1.1 hc
        · rw [if_neg hcn, ← hmem c]
          simp [hcn]
    · obtain ⟨l, hc, hm⟩ := hl.children hn
      rw [if_neg (fun h => hxd h.2)] at hchild
      rw [hchild]
      have hother : ∀ b, v.parentOf b = some x → b ≠ n ∧ link ≠ .after b := by
        intro b hb
        constructor
        · rintro rfl
          rw [hp, Option.some.injEq] at hb
          exact hxd hb.symm
        · intro hlb
          have hbd := (hmem b).mp (by simp [hafter b hlb])
          rw [hbd, Option.some.injEq] at hb
          exact hxd hb.symm
      refine ⟨l, hc.congr fun b hb => ?_, ?_⟩
      · obtain ⟨hbn, hbl⟩ := hother b ((hm b).mp hb)
        rw [nextOf_detachNode, if_neg hbn, if_neg (fun h => hbl h.1)]
      · intro c
        rw [parentOf_detachNode, hm c]
        by_cases hcn : c = n
        · subst hcn
          rw [if_pos rfl, hp]
          simp [Ne.symm hxd]
        · rw [if_neg hcn]
  · intro c e hc
    rw [parentOf_detachNode] at hc
    split at hc
    · cases hc
    · obtain ⟨dir', hd', ht⟩ := hl.parent hc
      have hnew := node_detachNode v d n link e
      rw [hd', Option.map_some] at hnew
      exact ⟨_, hnew, ht⟩
  · intro c node' e dir' hc hpar hd'
    obtain ⟨node, hn, -, hm, -, hp', -, -⟩ := hkeep hc
    obtain ⟨dir₀, hd₀, -, hm₀, -, -, -, -⟩ := hkeep hd'
    rw [hpar] at hp'
    split at hp'
    · cases hp'
    · rw [hm, hm₀]
      exact hl.mount hn hp'.symm hd₀
  · intro c node' e hc hpar
    obtain ⟨node, hn, -, -, hname, hp', -, -⟩ := hkeep hc
    rw [hpar] at hp'
    split at hp'
    · cases hp'
    · rw [hname]
      exact hl.name hn hp'.symm
  · intro c c' node₁ node₂ e hc hc' hp₁ hp₂ hname
    obtain ⟨m₁, hn₁, -, -, hna₁, hq₁, -, -⟩ := hkeep hc
    obtain ⟨m₂, hn₂, -, -, hna₂, hq₂, -, -⟩ := hkeep hc'
    rw [hp₁] at hq₁
    rw [hp₂] at hq₂
    split at hq₁
    · cases hq₁
    split at hq₂
    · cases hq₂
    rw [hna₁, hna₂] at hname
    exact hl.unique hn₁ hn₂ hq₁.symm hq₂.symm hname
  · intro c node' hc hpar
    obtain ⟨node, hn, -, -, -, hp', -, hnext⟩ := hkeep hc
    rw [hpar] at hp'
    rw [hnext]
    split
    · rfl
    · rename_i hcn
      rw [if_neg hcn] at hp'
      rw [if_neg]
      · exact hl.loose hn hp'.symm
      · intro hlc
        have hcd := (hmem c).mp (by simp [hafter c hlc])
        rw [Vfs.parentOf_of_node hn, ← hp'] at hcd
        cases hcd

end Detach

/-! ### Pushing onto a list -/

/-- `v'` is `v` with the node `n`, loose or absent in `v`, linked at the head of the children of
`d` as `new`. -/
structure Pushed (v v' : Vfs) (d n : NodeId) (dir new : Node) : Prop where
  dirNode : v.node d = some dir
  directory : dir.type = .directory
  ne : n ≠ d
  loose : v.parentOf n = none
  newNode : v'.node n = some new
  newDir : v'.node d = some { dir with children := some n }
  others : ∀ c, c ≠ n → c ≠ d → v'.node c = v.node c
  parent : new.parent = some d
  sibling : new.nextSibling = dir.children
  mount : new.mount = dir.mount
  name : goodName new.name
  free : ∀ {c node}, v.node c = some node → node.parent = some d → node.name ≠ new.name
  kept : ∀ {old}, v.node n = some old →
    new.children = old.children ∧ new.mount = old.mount ∧ new.type = old.type
  fresh : v.node n = none → new.children = none

namespace Pushed

variable {v' : Vfs} {new : Node}

theorem parentOf (hp : Pushed v v' d n dir new) (c : NodeId) :
    v'.parentOf c = if c = n then some d else v.parentOf c := by
  by_cases hcn : c = n
  · rw [if_pos hcn, hcn, Vfs.parentOf_of_node hp.newNode, hp.parent]
  · rw [if_neg hcn]
    by_cases hcd : c = d
    · rw [hcd, Vfs.parentOf_of_node hp.newDir, Vfs.parentOf_of_node hp.dirNode]
    · rw [Vfs.parentOf, hp.others c hcn hcd, Vfs.parentOf]

theorem nextOf (hp : Pushed v v' d n dir new) {c : NodeId} (hcn : c ≠ n) : v'.nextOf c = v.nextOf c := by
  by_cases hcd : c = d
  · rw [hcd, Vfs.nextOf_of_node hp.newDir, Vfs.nextOf_of_node hp.dirNode]
  · rw [Vfs.nextOf, hp.others c hcn hcd, Vfs.nextOf]

/-- Every node but `n` keeps what is not its children pointer. -/
theorem keeps (hp : Pushed v v' d n dir new) {c : NodeId} (hcn : c ≠ n) {node' : Node}
    (hc : v'.node c = some node') :
    ∃ node, v.node c = some node ∧ node'.type = node.type ∧ node'.mount = node.mount ∧
      node'.name = node.name ∧ node'.parent = node.parent ∧ node'.nextSibling = node.nextSibling := by
  by_cases hcd : c = d
  · subst hcd
    rw [hp.newDir, Option.some.injEq] at hc
    subst hc
    exact ⟨dir, hp.dirNode, rfl, rfl, rfl, rfl, rfl⟩
  · rw [hp.others c hcn hcd] at hc
    exact ⟨node', hc, rfl, rfl, rfl, rfl, rfl⟩

/-- The new node may still change outside the tree. -/
theorem adorn {f : Node → Node} (hp : Pushed v v' d n dir new) (hf : ∀ node, (f node).mount = node.mount ∧
    (f node).type = node.type ∧ (f node).name = node.name ∧ (f node).parent = node.parent ∧
    (f node).children = node.children ∧ (f node).nextSibling = node.nextSibling) :
    Pushed v (v'.setNode n f) d n dir (f new) := by
  obtain ⟨hmount, htype, hname, hparent, hchildren, hsibling⟩ := hf new
  refine ⟨hp.dirNode, hp.directory, hp.ne, hp.loose, ?_, ?_, ?_, ?_, ?_, ?_, ?_, ?_, ?_, ?_⟩
  · rw [Vfs.node_setNode_self, hp.newNode, Option.map_some]
  · rw [Vfs.node_setNode_of_ne _ _ (Ne.symm hp.ne), hp.newDir]
  · intro c hcn hcd
    rw [Vfs.node_setNode_of_ne _ _ hcn, hp.others c hcn hcd]
  · rw [hparent, hp.parent]
  · rw [hsibling, hp.sibling]
  · rw [hmount, hp.mount]
  · rw [hname]
    exact hp.name
  · rw [hname]
    exact hp.free
  · intro old ho
    rw [hchildren, hmount, htype]
    exact hp.kept ho
  · intro ho
    rw [hchildren]
    exact hp.fresh ho

theorem ware (hp : Pushed v v' d n dir new) (c : NodeId) :
    (v'.node c).map Node.ware = if c = n then some new.ware else (v.node c).map Node.ware := by
  by_cases hcn : c = n
  · rw [if_pos hcn, hcn, hp.newNode, Option.map_some]
  · rw [if_neg hcn]
    by_cases hcd : c = d
    · rw [hcd, hp.newDir, hp.dirNode, Option.map_some, Option.map_some]
      rfl
    · rw [hp.others c hcn hcd]

theorem links (hl : Links v) (hp : Pushed v v' d n dir new) : Links v' := by
  have hnoself : ∀ c, v.parentOf c ≠ none → c ≠ n := by
    rintro c hc rfl
    exact hc hp.loose
  refine ⟨?_, ?_, ?_, ?_, ?_, ?_⟩
  · intro x node' hx
    by_cases hxd : x = d
    · subst hxd
      rw [hp.newDir, Option.some.injEq] at hx
      subst hx
      obtain ⟨l, hc, hm⟩ := hl.children hp.dirNode
      refine ⟨n :: l, hc.push ?_ fun b hb => ?_, ?_⟩
      · rw [Vfs.nextOf_of_node hp.newNode, hp.sibling]
      · exact hp.nextOf (hnoself b (by rw [(hm b).mp hb]; simp))
      · intro c
        rw [hp.parentOf, List.mem_cons]
        by_cases hcn : c = n
        · simp [hcn]
        · simp [hcn, hm c]
    · -- the list of any other directory is untouched, also that of `n` itself
      obtain ⟨l, hc, hm⟩ : ∃ l, Chain v.nextOf node'.children l ∧
          ∀ c, c ∈ l ↔ v.parentOf c = some x := by
        by_cases hxn : x = n
        · subst hxn
          rw [hp.newNode, Option.some.injEq] at hx
          subst hx
          cases hold : v.node x with
          | none =>
            refine ⟨[], by rw [hp.fresh hold]; exact .nil, ?_⟩
            intro c
            simp only [List.not_mem_nil, false_iff]
            intro hc
            obtain ⟨dir', hd', -⟩ := hl.parent hc
            rw [hold] at hd'
            cases hd'
          | some old =>
            rw [(hp.kept hold).1]
            exact hl.children hold
        · rw [hp.others x hxn hxd] at hx
          exact hl.children hx
      refine ⟨l, hc.congr fun b hb => ?_, ?_⟩
      · exact hp.nextOf (hnoself b (by rw [(hm b).mp hb]; simp))
      · intro c
        rw [hp.parentOf, hm c]
        by_cases hcn : c = n
        · simp [hcn, hp.loose, Ne.symm hxd]
        · simp [hcn]
  · intro c e hc
    rw [hp.parentOf] at hc
    split at hc
    · cases hc
      exact ⟨_, hp.newDir, hp.directory⟩
    · obtain ⟨dir', hd', ht⟩ := hl.parent hc
      by_cases hen : e = n
      · subst hen
        exact ⟨new, hp.newNode, by rw [(hp.kept hd').2.2, ht]⟩
      by_cases hed : e = d
      · subst hed
        exact ⟨_, hp.newDir, hp.directory⟩
      · exact ⟨dir', by rw [hp.others e hen hed, hd'], ht⟩
  · intro c node' e dir' hc hpar hd'
    by_cases hcn : c = n
    · subst hcn
      rw [hp.newNode, Option.some.injEq] at hc
      subst hc
      rw [hp.parent, Option.some.injEq] at hpar
      subst hpar
      rw [hp.newDir, Option.some.injEq] at hd'
      subst hd'
      exact hp.mount.symm
    · obtain ⟨node, hn, -, hm, -, hq, -⟩ := hp.keeps hcn hc
      rw [hpar] at hq
      rw [hm]
      obtain ⟨dir₀, hd₀, -⟩ := hl.parent (by rw [Vfs.parentOf_of_node hn, ← hq] : v.parentOf c = some e)
      rw [← hl.mount hn hq.symm hd₀]
      by_cases hen : e = n
      · subst hen
        rw [hp.newNode, Option.some.injEq] at hd'
        subst hd'
        exact (hp.kept hd₀).2.1
      · obtain ⟨dir₁, hd₁, -, hm₁, -⟩ := hp.keeps hen hd'
        rw [hd₀, Option.some.injEq] at hd₁
        subst hd₁
        exact hm₁
  · intro c node' e hc hpar
    by_cases hcn : c = n
    · subst hcn
      rw [hp.newNode, Option.some.injEq] at hc
      subst hc
      exact hp.name
    · obtain ⟨node, hn, -, -, hna, hq, -⟩ := hp.keeps hcn hc
      rw [hna]
      exact hl.name hn (by rw [← hq, hpar])
  · intro c c' node₁ node₂ e hc hc' hp₁ hp₂ hname
    -- the name of `n` is not one of the other children of `d`
    have hclash : ∀ {x node'}, x ≠ n → v'.node x = some node' → node'.parent = some d →
        node'.name ≠ new.name := by
      intro x node' hxn hx hxp
      obtain ⟨node, hn, -, -, hna, hq, -⟩ := hp.keeps hxn hx
      rw [hna]
      exact hp.free hn (by rw [← hq, hxp])
    by_cases hcn : c = n <;> by_cases hcn' : c' = n
    · rw [hcn, hcn']
    · exfalso
      subst hcn
      rw [hp.newNode, Option.some.injEq] at hc
      subst hc
      rw [hp.parent, Option.some.injEq] at hp₁
      subst hp₁
      exact hclash hcn' hc' hp₂ hname.symm
    · exfalso
      subst hcn'
      rw [hp.newNode, Option.some.injEq] at hc'
      subst hc'
      rw [hp.parent, Option.some.injEq] at hp₂
      subst hp₂
      exact hclash hcn hc hp₁ hname
    · obtain ⟨m₁, hn₁, -, -, hna₁, hq₁, -⟩ := hp.keeps hcn hc
      obtain ⟨m₂, hn₂, -, -, hna₂, hq₂, -⟩ := hp.keeps hcn' hc'
      exact hl.unique hn₁ hn₂ (by rw [← hq₁, hp₁]) (by rw [← hq₂, hp₂]) (by rw [← hna₁, ← hna₂, hname])
  · intro c node' hc hpar
    have hcn : c ≠ n := by
      rintro rfl
      rw [hp.newNode, Option.some.injEq] at hc
      subst hc
      rw [hp.parent] at hpar
      cases hpar
    obtain ⟨node, hn, -, -, -, hq, hs⟩ := hp.keeps hcn hc
    rw [hs]
    exact hl.loose hn (by rw [← hq, hpar])

end Pushed

/-! ### Lookup -/

theorem findChild_some (hl : Links v) (hd : v.node d = some dir) {name : Bytes}
    (hf : findChild v d name = some c) :
    ∃ node, v.node c = some node ∧ node.parent = some d ∧ node.name = name := by
  obtain ⟨l, hc, hm⟩ := hl.children hd
  rw [findChild, Vfs.childrenOf_of_node hd, findFrom_eq hc _ (length_le hc hm)] at hf
  have hmem := List.mem_of_find?_eq_some hf
  obtain ⟨node, hn, hp⟩ := Vfs.node_of_parentOf ((hm c).mp hmem)
  refine ⟨node, hn, hp, ?_⟩
  simpa [hasName, hn] using List.find?_some hf

theorem findChild_none (hl : Links v) (hd : v.node d = some dir) {name : Bytes}
    (hf : findChild v d name = none) (hn : v.node c = some node) (hp : node.parent = some d) :
    node.name ≠ name := by
  obtain ⟨l, hc, hm⟩ := hl.children hd
  rw [findChild, Vfs.childrenOf_of_node hd, findFrom_eq hc _ (length_le hc hm)] at hf
  have hmem : c ∈ l := (hm c).mpr (by rw [Vfs.parentOf_of_node hn, hp])
  simpa [hasName, hn] using List.find?_eq_none.mp hf c hmem

end Links

end CannedBsd
