import CannedBsd.Vfs.Account

/-!
# Programs and the nodes that hold them

A program belongs to the node it was registered at and is destroyed with it. The executable nodes
hold live programs, no two of them the same, so a program is destroyed at most once and not before
its node.

* `Stocked.free`: a node that goes takes its program along.
* `Sound.release_stock`: giving a reference back destroys at most the program of the node.
-/

namespace CannedBsd

open CannedBsd.Lib

/-- Every program of a node is live and has no other node, an executable file has a program, and a
destroyed program stays destroyed. -/
structure Stocked (v : Vfs) : Prop where
  typed : ∀ {n node}, v.node n = some node → node.type = .executable → ∃ p, node.executable = some p
  live : ∀ {n node p}, v.node n = some node → node.executable = some p →
    ∃ program, v.programs.get p = some program
  single : ∀ {n n' node node' p}, v.node n = some node → v.node n' = some node' →
    node.executable = some p → node'.executable = some p → n = n'
  once : v.destroyed.Nodup
  gone : ∀ {p}, p ∈ v.destroyed → p < v.programs.next ∧ v.programs.get p = none

/-- The node is live and holds the program. -/
def Houses (v : Vfs) (n : NodeId) (p : ProgramId) : Prop :=
  ∃ node, v.node n = some node ∧ node.executable = some p

/-- The programs, and which nodes hold them, stay. -/
structure SameStock (v v' : Vfs) : Prop where
  programs : v'.programs = v.programs
  destroyed : v'.destroyed = v.destroyed
  next : v'.nodes.next = v.nodes.next
  ware : ∀ n, (v'.node n).map Node.ware = (v.node n).map Node.ware

/-- There is one node more, which holds no program or one that no other node holds. -/
structure NewStock (v v' : Vfs) (n : NodeId) (new : Node) : Prop where
  programs : v'.programs = v.programs
  destroyed : v'.destroyed = v.destroyed
  fresh : n = v.nodes.next
  next : v'.nodes.next = n + 1
  ware : ∀ c, (v'.node c).map Node.ware = if c = n then some new.ware else (v.node c).map Node.ware
  typed : new.type = .executable → ∃ p, new.executable = some p
  held : ∀ {p}, new.executable = some p → (∃ program, v.programs.get p = some program) ∧
    ∀ {c node}, v.node c = some node → node.executable ≠ some p

/-- No node that both know changes its program, no program comes back, and none changes. -/
structure Keeps (v v' : Vfs) : Prop where
  next : v.nodes.next ≤ v'.nodes.next
  executable : ∀ {n node'}, v'.node n = some node' → n < v.nodes.next →
    ∃ node, v.node n = some node ∧ node'.executable = node.executable
  programs : v.programs.next ≤ v'.programs.next
  program : ∀ {p program}, v'.programs.get p = some program → p < v.programs.next →
    v.programs.get p = some program

namespace Keeps

variable {v v' v'' : Vfs}

theorem refl (v : Vfs) : Keeps v v := ⟨le_rfl, fun h _ => ⟨_, h, rfl⟩, le_rfl, fun h _ => h⟩

theorem trans (h : Keeps v v') (h' : Keeps v' v'') : Keeps v v'' := by
  refine ⟨h.next.trans h'.next, fun hn hlt => ?_, h.programs.trans h'.programs, fun hp hlt => ?_⟩
  · obtain ⟨node', hn', heq'⟩ := h'.executable hn (hlt.trans_le h.next)
    obtain ⟨node, hn, heq⟩ := h.executable hn' hlt
    exact ⟨node, hn, heq'.trans heq⟩
  · exact h.program (h'.program hp (hlt.trans_le h.programs)) hlt

/-- A node that still lives holds what it held. -/
theorem houses {n : NodeId} {p : ProgramId} {node' : Node} (h : Keeps v v') (hh : Houses v n p)
    (hlive : v'.node n = some node') : Houses v' n p := by
  obtain ⟨node, hn, hp⟩ := hh
  obtain ⟨x, hx, heq⟩ := h.executable hlive (Vfs.lt_next_of_node hn)
  rw [hn, Option.some.injEq] at hx
  subst hx
  exact ⟨node', hlive, heq.trans hp⟩

end Keeps

variable {v v' : Vfs} {ext : NodeId → ℕ} {n : NodeId} {node new : Node} {p : ProgramId}

/-! ### Changes that leave the programs alone -/

namespace SameStock

theorem back (h : SameStock v v') {c : NodeId} {x' : Node} (hc : v'.node c = some x') :
    ∃ x, v.node c = some x ∧ x'.ware = x.ware := by
  have heq := h.ware c
  rw [hc, Option.map_some, eq_comm, Option.map_eq_some_iff] at heq
  obtain ⟨x, hx, he⟩ := heq
  exact ⟨x, hx, he.symm⟩

theorem keeps (h : SameStock v v') : Keeps v v' := by
  refine ⟨le_of_eq h.next.symm, fun hc _ => ?_, ?_, fun hp _ => ?_⟩
  · obtain ⟨x, hx, heq⟩ := h.back hc
    exact ⟨x, hx, congrArg Prod.snd heq⟩
  · rw [h.programs]
  · rwa [h.programs] at hp

theorem stocked (h : SameStock v v') (hs : Stocked v) : Stocked v' := by
  have hback : ∀ {c x'}, v'.node c = some x' →
      ∃ x, v.node c = some x ∧ x'.type = x.type ∧ x'.executable = x.executable := by
    intro c x' hc
    obtain ⟨x, hx, heq⟩ := h.back hc
    exact ⟨x, hx, congrArg Prod.fst heq, congrArg Prod.snd heq⟩
  refine ⟨fun hc hty => ?_, fun hc hp => ?_, fun hc hc' hp hp' => ?_, ?_, fun hp => ?_⟩
  · obtain ⟨x, hx, htype, heq⟩ := hback hc
    rw [heq]
    exact hs.typed hx (htype.symm.trans hty)
  · obtain ⟨x, hx, -, heq⟩ := hback hc
    rw [h.programs]
    exact hs.live hx (heq.symm.trans hp)
  · obtain ⟨x, hx, -, heq⟩ := hback hc
    obtain ⟨y, hy, -, heq'⟩ := hback hc'
    exact hs.single hx hy (heq.symm.trans hp) (heq'.symm.trans hp')
  · rw [h.destroyed]
    exact hs.once
  · rw [h.destroyed] at hp
    rw [h.programs]
    exact hs.gone hp

theorem trans {v'' : Vfs} (h : SameStock v v') (h' : SameStock v' v'') : SameStock v v'' :=
  ⟨h'.programs.trans h.programs, h'.destroyed.trans h.destroyed, h'.next.trans h.next,
    fun n => (h'.ware n).trans (h.ware n)⟩

theorem setNode (v : Vfs) (n : NodeId) {f : Node → Node}
    (hf : ∀ node, v.node n = some node → (f node).ware = node.ware) : SameStock v (v.setNode n f) := by
  refine ⟨rfl, rfl, Heap.next_modify _ _ _, fun c => ?_⟩
  rw [Vfs.node_setNode]
  split
  · rename_i heq
    subst heq
    cases hc : v.node c with
    | none => rfl
    | some node =>
      rw [Option.map_some, Option.map_some, Option.map_some, hf node hc]
  · rfl

theorem setLink (v : Vfs) (d : NodeId) (next : Option NodeId) (link : Link NodeId) :
    SameStock v (setLink v d next link) := by
  cases link with
  | head => exact .setNode v d fun _ _ => rfl
  | after p => exact .setNode v p fun _ _ => rfl

theorem detachNode (v : Vfs) (d n : NodeId) (link : Link NodeId) : SameStock v (detachNode v d n link) :=
  (setLink v d (v.nextOf n) link).trans (.setNode _ n fun _ _ => rfl)

end SameStock

/-! ### New nodes -/

namespace NewStock

theorem back (h : NewStock v v' n new) {c : NodeId} {x' : Node} (hc : v'.node c = some x') :
    c = n ∧ x'.ware = new.ware ∨ c ≠ n ∧ ∃ x, v.node c = some x ∧ x'.ware = x.ware := by
  have heq := h.ware c
  rw [hc, Option.map_some] at heq
  split at heq
  · rename_i hcn
    exact .inl ⟨hcn, Option.some.inj heq⟩
  · rename_i hcn
    rw [eq_comm, Option.map_eq_some_iff] at heq
    obtain ⟨x, hx, he⟩ := heq
    exact .inr ⟨hcn, x, hx, he.symm⟩

theorem keeps (h : NewStock v v' n new) : Keeps v v' := by
  refine ⟨by rw [h.next, h.fresh]; omega, fun hc hlt => ?_, ?_, fun hp _ => ?_⟩
  · rcases h.back hc with ⟨hcn, -⟩ | ⟨-, x, hx, heq⟩
    · rw [hcn, h.fresh] at hlt
      exact absurd hlt (lt_irrefl _)
    · exact ⟨x, hx, congrArg Prod.snd heq⟩
  · rw [h.programs]
  · rwa [h.programs] at hp

theorem stocked (h : NewStock v v' n new) (hs : Stocked v) : Stocked v' := by
  have hback : ∀ {c x'}, v'.node c = some x' → c = n ∧ x'.type = new.type ∧ x'.executable = new.executable ∨
      c ≠ n ∧ ∃ x, v.node c = some x ∧ x'.type = x.type ∧ x'.executable = x.executable := by
    intro c x' hc
    rcases h.back hc with ⟨hcn, heq⟩ | ⟨hcn, x, hx, heq⟩
    · exact .inl ⟨hcn, congrArg Prod.fst heq, congrArg Prod.snd heq⟩
    · exact .inr ⟨hcn, x, hx, congrArg Prod.fst heq, congrArg Prod.snd heq⟩
  refine ⟨fun hc hty => ?_, fun hc hp => ?_, fun hc hc' hp hp' => ?_, ?_, fun hp => ?_⟩
  · rcases hback hc with ⟨-, htype, heq⟩ | ⟨-, x, hx, htype, heq⟩
    · rw [heq]
      exact h.typed (htype.symm.trans hty)
    · rw [heq]
      exact hs.typed hx (htype.symm.trans hty)
  · rw [h.programs]
    rcases hback hc with ⟨-, -, heq⟩ | ⟨-, x, hx, -, heq⟩
    · exact (h.held (heq.symm.trans hp)).1
    · exact hs.live hx (heq.symm.trans hp)
  · rcases hback hc with ⟨hcn, -, heq⟩ | ⟨-, x, hx, -, heq⟩
    · rcases hback hc' with ⟨hcn', -⟩ | ⟨-, y, hy, -, heq'⟩
      · rw [hcn, hcn']
      · exact absurd (heq'.symm.trans hp') ((h.held (heq.symm.trans hp)).2 hy)
    · rcases hback hc' with ⟨-, -, heq'⟩ | ⟨-, y, hy, -, heq'⟩
      · exact absurd (heq.symm.trans hp) ((h.held (heq'.symm.trans hp')).2 hx)
      · exact hs.single hx hy (heq.symm.trans hp) (heq'.symm.trans hp')
  · rw [h.destroyed]
    exact hs.once
  · rw [h.destroyed] at hp
    rw [h.programs]
    exact hs.gone hp

end NewStock

/-! ### Destroying programs -/

theorem Stocked.prepare (hs : Stocked v) (program : Program) (count : ℕ) :
    Stocked { v with programs := v.programs.alloc program, programCount := count } ∧
      Keeps v { v with programs := v.programs.alloc program, programCount := count } := by
  refine ⟨⟨hs.typed, fun hn hp => ?_, hs.single, hs.once, fun hp => ?_⟩, le_rfl, fun hn _ => ⟨_, hn, rfl⟩, ?_, fun hp hlt => ?_⟩
  · obtain ⟨x, hx⟩ := hs.live hn hp
    exact ⟨x, Heap.get_alloc_of_get hx⟩
  · obtain ⟨hlt, hnone⟩ := hs.gone hp
    refine ⟨?_, ?_⟩
    · show _ < (v.programs.alloc program).next
      rw [Heap.next_alloc]
      exact hlt.trans (Nat.lt_succ_self _)
    · rw [Heap.get_alloc_of_ne _ _ (Nat.ne_of_lt hlt), hnone]
  · rw [Heap.next_alloc]
    omega
  · rwa [Heap.get_alloc_of_ne _ _ (Nat.ne_of_lt hlt)] at hp

/-- A program no node holds can be destroyed. -/
theorem Stocked.discard {program : Program} (hs : Stocked v) (hp : v.programs.get p = some program)
    (hfree : ∀ {n node}, v.node n = some node → node.executable ≠ some p) :
    Stocked (programDestroy v (some p)) ∧ Keeps v (programDestroy v (some p)) := by
  have hnew : p ∉ v.destroyed := by
    intro hmem
    rw [(hs.gone hmem).2] at hp
    cases hp
  refine ⟨⟨hs.typed, fun {n node q} hn hq => ?_, hs.single, List.nodup_cons.mpr ⟨hnew, hs.once⟩, fun {q} hq => ?_⟩, le_rfl,
    fun hn _ => ⟨_, hn, rfl⟩, le_of_eq (Heap.next_free _ _).symm, fun {q x} hq _ => ?_⟩
  · obtain ⟨x, hx⟩ := hs.live hn hq
    refine ⟨x, ?_⟩
    show (v.programs.free p).get q = some x
    rw [Heap.get_free, if_neg]
    · exact hx
    · rintro rfl
      exact hfree hn hq
  · show q < (v.programs.free p).next ∧ (v.programs.free p).get q = none
    rw [Heap.next_free, Heap.get_free]
    rcases List.mem_cons.mp hq with rfl | hmem
    · exact ⟨Heap.lt_next_of_get hp, if_pos rfl⟩
    · obtain ⟨hlt, hnone⟩ := hs.gone hmem
      refine ⟨hlt, ?_⟩
      rw [hnone, ite_self]
  · have hget : (v.programs.free p).get q = some x := hq
    rw [Heap.get_free] at hget
    split at hget
    · cases hget
    · exact hget

/-- A node goes. -/
theorem Stocked.drop (hs : Stocked v) (n : NodeId) :
    Stocked { v with nodes := v.nodes.free n } ∧ Keeps v { v with nodes := v.nodes.free n } := by
  have hback : ∀ {c x}, ({ v with nodes := v.nodes.free n } : Vfs).node c = some x → v.node c = some x := by
    intro c x hc
    rw [Vfs.node, Heap.get_free] at hc
    split at hc
    · cases hc
    · exact hc
  refine ⟨⟨fun hc => hs.typed (hback hc), fun hc => hs.live (hback hc), fun hc hc' => hs.single (hback hc) (hback hc'), hs.once, hs.gone⟩,
    le_of_eq (Heap.next_free _ _).symm, fun hc _ => ⟨_, hback hc, rfl⟩, le_rfl, fun hp _ => hp⟩

/-- A node that goes takes its program along. -/
theorem Stocked.free (hs : Stocked v) (hn : v.node n = some node) :
    Stocked { programDestroy v node.executable with nodes := v.nodes.free n } ∧
      Keeps v { programDestroy v node.executable with nodes := v.nodes.free n } := by
  obtain ⟨hdrop, hkeep⟩ := hs.drop n
  cases hp : node.executable with
  | none => exact ⟨hdrop, hkeep⟩
  | some p =>
    obtain ⟨program, hlive⟩ := hs.live hn hp
    have hfree : ∀ {c x}, ({ v with nodes := v.nodes.free n } : Vfs).node c = some x → x.executable ≠ some p := by
      intro c x hc hx
      rw [Vfs.node, Heap.get_free] at hc
      split at hc
      · cases hc
      · rename_i hcn
        exact hcn (hs.single hc hn hx hp)
    obtain ⟨hgone, hkeep'⟩ := hdrop.discard (p := p) hlive hfree
    exact ⟨hgone, hkeep.trans hkeep'⟩

/-- Giving a reference back destroys at most the node's own program. -/
theorem Sound.release_stock (h : Sound v ext) (hext : 0 < ext n) (hs : Stocked v) :
    Stocked (ramfsNodeRelease v n) ∧ Keeps v (ramfsNodeRelease v n) := by
  obtain ⟨node, hn⟩ := h.live hext
  have hlower : SameStock v (v.setNode n fun x => { x with references := x.references - 1 }) :=
    .setNode v n fun _ _ => rfl
  rw [ramfsNodeRelease, nodeRelease, hn]
  by_cases hone : node.references - 1 = 0
  · obtain ⟨-, hch, -, -⟩ := h.last hn hext hone
    simp only [if_pos hone, hch, Sound.releaseChildren_none]
    have hnode : (v.setNode n fun x => { x with references := x.references - 1 }).node n =
        some { node with references := node.references - 1 } := by
      rw [Vfs.node_setNode_self, hn]
      rfl
    obtain ⟨hgone, hkeep⟩ := (hlower.stocked hs).free hnode
    have hnodes : ∀ (w : Vfs) (o : Option ProgramId), (programDestroy w o).nodes = w.nodes := by
      intro w o
      cases o <;> rfl
    rw [hnodes]
    exact ⟨hgone, hlower.keeps.trans hkeep⟩
  · simp only [if_neg hone]
    exact ⟨hlower.stocked hs, hlower.keeps⟩

end CannedBsd
