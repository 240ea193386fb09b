import CannedBsd.Vfs.Moves

/-!
# Listings

What a reader of a directory has not returned yet is a tail of the list of children, and a change that
takes none of these entries out of its place keeps that tail. New entries are put at the head of the
list, and an entry in front of the tail can be cut out.

* `VMove.place_keep`: a node keeps its place if neither it nor the one behind it may go.
* `Unread.move`: a change that takes out no entry left to read keeps the list of these.
* `unread_entriesOf`: at first the whole directory is left to read.
-/

namespace CannedBsd

open CannedBsd.Lib

/-! ### Places -/

/-- What a directory shows of a node, and its place in it. -/
def Node.place (node : Node) : Bytes × ℕ × NodeType × Option NodeId × Option NodeId :=
  (node.name, node.inode, node.type, node.parent, node.nextSibling)

theorem place_setNode {v : Vfs} {n : NodeId} {f : Node → Node} (hf : ∀ node, (f node).place = node.place) (c : NodeId) :
    ((v.setNode n f).node c).map Node.place = (v.node c).map Node.place := by
  rw [Vfs.node_setNode]
  split
  · rw [Option.map_map]
    exact congrArg (fun g => (v.node c).map g) (funext hf)
  · rfl

theorem place_pushed {v v' : Vfs} {d n c : NodeId} {dir new : Node} (h : Links.Pushed v v' d n dir new) (hc : c ≠ n) :
    (v'.node c).map Node.place = (v.node c).map Node.place := by
  by_cases hcd : c = d
  · subst hcd
    rw [h.newDir, h.dirNode]
    rfl
  · rw [h.others c hc hcd]

/-- Cutting out a node moves neither the others nor what they point to, unless they point to it. -/
theorem place_detachNode {v : Vfs} {d n c : NodeId} {link : Link NodeId} (hlink : linkTo v d n = some link)
    (hc : c ≠ n) (hnext : v.nextOf c ≠ some n) :
    ((detachNode v d n link).node c).map Node.place = (v.node c).map Node.place := by
  have hafter : link ≠ .after c := by
    rintro rfl
    refine hnext (findLink_next hlink fun h => ?_)
    cases h
  rw [Links.node_detachNode, Option.map_map]
  refine congrArg (fun g => (v.node c).map g) (funext fun node => ?_)
  simp [Node.place, hc, hafter]

/-- A node keeps its place if neither the node nor the one behind it may go. -/
theorem VMove.place_keep {gone : NodeId → Prop} {v v' : Vfs} {a a' ext : NodeId → ℕ} (hmove : VMove gone v a v' a')
    (h : Sound v fun n => ext n + a n) {c d : NodeId} (hp : v.parentOf c = some d) (hc : ¬ gone c)
    (hnext : ∀ x, v.nextOf c = some x → ¬ gone x) : (v'.node c).map Node.place = (v.node c).map Node.place := by
  cases hmove with
  | same _ hnodes _ =>
    have hfixed := congrArg (Option.map fun s : Shape × ℕ × Option ProgramId × ℕ =>
      (s.1.name, s.2.2.2, s.1.type, s.1.parent, s.1.nextSibling)) (hnodes c)
    rw [Option.map_map, Option.map_map] at hfixed
    exact hfixed
  | retain =>
    apply place_setNode
    exact fun _ => rfl
  | @release _ _ n ha =>
    have hpos : 0 < ext n + a n := by
      rw [ha, pointsTo_self]
      omega
    obtain ⟨node, hn, ⟨-, heq⟩ | ⟨hone, -, hnodes⟩⟩ := h.release_cases hpos
    · rw [heq]
      apply place_setNode
      exact fun _ => rfl
    · obtain ⟨hnone, -⟩ := h.last hn hpos hone
      rw [hnodes, if_neg]
      rintro rfl
      rw [Vfs.parentOf_of_node hn, hnone] at hp
      cases hp
  | create _ hpush _ _ _ _ =>
    refine place_pushed hpush ?_
    rintro rfl
    rw [hpush.loose] at hp
    cases hp
  | detach hg _ hlink _ _ _ =>
    refine place_detachNode hlink ?_ fun heq => hnext _ heq hg
    rintro rfl
    exact hc hg
  | @move _ _ _ _ n _ _ _ _ _ hg _ _ hlink hpush _ _ _ _ _ _ =>
    have hcn : c ≠ n := by
      rintro rfl
      exact hc hg
    rw [place_pushed hpush hcn]
    exact place_detachNode hlink hcn fun heq => hnext _ heq hg
  | mountRoot hr _ =>
    rw [hr.nodes, if_neg]
    rintro rfl
    rw [Vfs.parentOf, hr.free] at hp
    cases hp
  | attach => rfl
  | prepare => rfl
  | discard => rfl

/-! ### What is left to read -/

/-- A directory entry, with its node. -/
structure Entry where
  node : NodeId
  name : Bytes
  inode : ℕ
  type : NodeType
  deriving DecidableEq

def Vfs.entry (v : Vfs) (n : NodeId) : Option Entry :=
  (v.node n).map fun node => ⟨n, node.name, node.inode, node.type⟩

/-- The entries of a directory, in the order of its list of children. -/
def entriesOf (v : Vfs) (d : NodeId) : List Entry := (collect v.nextOf v.nodes.next (v.childrenOf d)).filterMap v.entry

/-- The entries are a tail of the list of children of `d`, from `first` on. -/
structure Unread (v : Vfs) (d : NodeId) (first : Option NodeId) (entries : List Entry) : Prop where
  chain : Chain v.nextOf first (entries.map Entry.node)
  entry : ∀ e ∈ entries, v.entry e.node = some e
  parent : ∀ e ∈ entries, v.parentOf e.node = some d

namespace Unread

variable {v v' : Vfs} {d : NodeId} {first : Option NodeId} {e : Entry} {entries : List Entry}

theorem first_eq (h : Unread v d first (e :: entries)) : first = some e.node := h.chain.eq_some

theorem node (h : Unread v d first (e :: entries)) :
    ∃ node, v.node e.node = some node ∧ node.name = e.name ∧ node.inode = e.inode ∧ node.type = e.type := by
  obtain ⟨node, hn, heq⟩ := Option.map_eq_some_iff.mp (h.entry e (List.mem_cons_self ..))
  exact ⟨node, hn, congrArg Entry.name heq, congrArg Entry.inode heq, congrArg Entry.type heq⟩

theorem tail (h : Unread v d first (e :: entries)) : Unread v d (v.nextOf e.node) entries := by
  refine ⟨?_, fun x hx => h.entry x (List.mem_cons_of_mem _ hx), fun x hx => h.parent x (List.mem_cons_of_mem _ hx)⟩
  have hchain := h.chain
  rw [List.map_cons] at hchain
  cases hchain with
  | cons hrest => exact hrest

/-- A change of the nodes that keeps the places of the entries. -/
theorem keep (h : Unread v d first entries)
    (hplace : ∀ e ∈ entries, (v'.node e.node).map Node.place = (v.node e.node).map Node.place) :
    Unread v' d first entries := by
  refine ⟨h.chain.congr fun c hc => ?_, fun e he => ?_, fun e he => ?_⟩
  · obtain ⟨e, he, rfl⟩ := List.mem_map.mp hc
    have hnext := congrArg (fun o : Option (Bytes × ℕ × NodeType × Option NodeId × Option NodeId) =>
      o.bind fun s => s.2.2.2.2) (hplace e he)
    simpa [Vfs.nextOf, Option.bind_map, Function.comp_def, Node.place] using hnext
  · rw [← h.entry e he]
    have hentry := congrArg (Option.map fun s : Bytes × ℕ × NodeType × Option NodeId × Option NodeId =>
      (⟨e.node, s.1, s.2.1, s.2.2.1⟩ : Entry)) (hplace e he)
    rw [Option.map_map, Option.map_map] at hentry
    exact hentry
  · rw [← h.parent e he]
    have hparent := congrArg (fun o : Option (Bytes × ℕ × NodeType × Option NodeId × Option NodeId) =>
      o.bind fun s => s.2.2.2.1) (hplace e he)
    simpa [Vfs.parentOf, Option.bind_map, Function.comp_def, Node.place] using hparent

/-- A change that takes none of the entries out of its place. -/
theorem move {gone : NodeId → Prop} {a a' ext : NodeId → ℕ} (h : Unread v d first entries)
    (hmove : VMove gone v a v' a') (hs : Sound v fun n => ext n + a n) (hstay : ∀ e ∈ entries, ¬ gone e.node) :
    Unread v' d first entries := by
  refine h.keep fun e he => hmove.place_keep hs (h.parent e he) (hstay e he) fun x hx => ?_
  -- the node behind an entry is an entry
  obtain ⟨e', he', rfl⟩ := List.mem_map.mp (h.chain.next_mem (List.mem_map_of_mem he) hx)
  exact hstay e' he'

end Unread

/-- The whole directory is left to read at first: all children, once each. -/
theorem unread_entriesOf {v : Vfs} {d : NodeId} {dir : Node} (hl : Links v) (hd : v.node d = some dir) :
    Unread v d dir.children (entriesOf v d) ∧
      (entriesOf v d).map Entry.node = collect v.nextOf v.nodes.next dir.children := by
  obtain ⟨hchain, hmem⟩ := hl.collect_children hd
  have hnodes : (entriesOf v d).map Entry.node = collect v.nextOf v.nodes.next dir.children := by
    rw [entriesOf, Vfs.childrenOf_of_node hd, List.map_filterMap]
    generalize collect v.nextOf v.nodes.next dir.children = l at hmem
    have hall : ∀ c ∈ l, (v.entry c).map Entry.node = some c := by
      intro c hc
      obtain ⟨node, hn, -⟩ := Vfs.node_of_parentOf ((hmem c).mp hc)
      rw [Vfs.entry, hn]
      rfl
    clear hmem
    induction l with
    | nil => rfl
    | cons c l ih =>
      rw [List.filterMap_cons, hall c (List.mem_cons_self ..)]
      exact congrArg (c :: ·) (ih fun x hx => hall x (List.mem_cons_of_mem _ hx))
  refine ⟨⟨?_, fun e he => ?_, fun e he => ?_⟩, hnodes⟩
  · rw [hnodes]
    exact hchain
  · obtain ⟨c, hc, heq⟩ := List.mem_filterMap.mp he
    have hself : e.node = c := by
      obtain ⟨node, -, rfl⟩ := Option.map_eq_some_iff.mp heq
      rfl
    rw [hself, heq]
  · rw [← hmem, ← hnodes]
    exact List.mem_map_of_mem he

end CannedBsd
