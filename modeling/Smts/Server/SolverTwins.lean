import Smts.Server.Twins

namespace Smts.Server

open Smts.Lib Smts.Lib.Prog

namespace Twin

variable {L : Link} {p : Marks} {s t : State} {x : SockId} {n : NodeId}

theorem header (h : Twin L p s t) (command : String) (hn : n < s.heap.size) :
    Solver.header t command (L.node n) = Solver.header s command n := by
  rw [Solver.header, Solver.header, h.heap.root, h.heap.path,
    h.heap.label _ (s.heap.root_lt_size hn)]

theorem reset_twin {f : NodeId → NodeId} {d d' : SolverData} (hd : d.Twin f d') :
    (Solver.reset d).Twin f (Solver.reset d') :=
  ⟨hd.name, rfl, rfl, rfl⟩

theorem match_stop (h : Twin L p s t) (hx : L.live x) :
    Match L p (Solver.stop x) (Solver.stop x) s t := by
  refine Coupled.get ?_
  have hd := h.solver x hx
  rw [hd.node]
  cases hn : (s.solver x).node with
  | none => exact Coupled.raise h.like
  | some n =>
    refine Match.bind (h.match_modifySolver (reset_twin hd) (fun _ => rfl) (fun _ hm => ?_)
      fun _ ho => ?_) fun _ u v hu => ?_
    · cases hm
    · cases ho
    · rw [h.header Constant.stop (h.placed x n hx hn)]
      exact hu.match_write x (.refl _) "" (some n) (some (L.node n))

theorem match_terminate (h : Twin L p s t) (hx : L.live x) :
    Match L p (Solver.terminate x) (Solver.terminate x) s t := by
  refine Coupled.get ?_
  rw [(h.solver x hx).node]
  cases hn : (s.solver x).node with
  | none => exact Coupled.raise h.like
  | some n =>
    dsimp only [Option.map_some]
    rw [h.header Constant.terminate (h.placed x n hx hn)]
    exact h.match_write x (.refl _) "" (some n) (some (L.node n))

theorem match_markStarted (h : Twin L p s t) (hn : n < p.nodes) :
    Match L p (Solver.markStarted n) (Solver.markStarted (L.node n)) s t := by
  refine Coupled.get (Coupled.when ?_ (fun _ => ?_) fun _ => ⟨rfl, h⟩)
  · rw [h.heap.attrs n (Nat.lt_of_lt_of_le hn h.nodes)]
  · exact Match.bind h.match_now fun a u v hu =>
      hu.match_modifyNode (Nat.lt_of_lt_of_le hn hu.nodes) _

theorem leaves_now : Leaves State.solver now := fun _ => rfl

theorem leaves_write (x : SockId) (header : Header) (payload : String) (about : Option NodeId) :
    Leaves State.solver (write x header payload about) := by
  intro s
  unfold write
  split
  · rfl
  · split
    · split <;> rfl
    · rfl

theorem match_assign (h : Twin L p s t) (hx : L.live x) (hn : n < p.nodes)
    {parameters parameters' : Header} (hp : parameters.Alike parameters') :
    Match L p (Solver.assign x n parameters) (Solver.assign x (L.node n) parameters') s t := by
  have hsize : n < s.heap.size := Nat.lt_of_lt_of_le hn h.nodes
  have hd := h.solver x hx
  refine Coupled.bind (h.modifySolver ⟨hd.name, rfl, hd.started, hd.orWaiting⟩ ?_ ?_ ?_)
    fun _ _ u v hu => ?_
  · intro hnone
    cases hnone
  · intro m hm
    cases hm
    exact hsize
  · exact fun o ho => h.waiting x o hx ho
  obtain ⟨⟨_, hu⟩, hnode⟩ := hu
  have hnu : n < u.heap.size := Nat.lt_of_lt_of_le hn hu.nodes
  refine Coupled.get ?_
  have htext := hu.heap.toString none (u.heap.root_lt_size hnu) hnu
  simp only [Option.map_none, ← hu.heap.root] at htext
  rw [htext, hu.header Constant.solve hnu, hu.config]
  refine Coupled.bind_ofExcept (f := id) (by rw [Except.map_id]; rfl) hu.like fun text _ => ?_
  have hheader := hp.update (Solver.header u Constant.solve n ++
    [(Constant.query, text.2), (Constant.maxMemory, toString u.config.maxMemory)])
  refine Coupled.bind ((hu.match_write x hheader text.1 _ _).leaves (leaves_write _ _ _ _))
    fun _ _ u₁ v₁ ⟨⟨_, hu₁⟩, hs₁⟩ => ?_
  refine Coupled.bind (hu₁.match_now.leaves leaves_now) fun time _ u₂ v₂ ⟨⟨htime, hu₂⟩, hs₂⟩ => ?_
  subst htime
  have hnode₂ : (u₂.solver x).node = some n := by rw [hs₂, hs₁, hnode]
  have hd₂ := hu₂.solver x hx
  refine Match.bind (hu₂.match_modifySolver ⟨hd₂.name, hd₂.node, rfl, hd₂.orWaiting⟩ ?_
    (fun m hm => hu₂.placed x m hx hm) (fun o ho => hu₂.waiting x o hx ho)) fun _ u₃ v₃ hu₃ =>
      hu₃.match_markStarted hn
  intro hnone
  rw [hnode₂] at hnone
  cases hnone

theorem match_solve (h : Twin L p s t) (hx : L.live x) (hn : n < p.nodes)
    {parameters parameters' : Header} (hp : parameters.Alike parameters') :
    Match L p (Solver.solve x n parameters) (Solver.solve x (L.node n) parameters') s t := by
  refine Coupled.get (Match.bind (Coupled.when ?_ (fun _ => h.match_stop hx) fun _ => ⟨rfl, h⟩)
    fun _ u v hu => hu.match_assign hx hn hp)
  rw [(h.solver x hx).node, ne_eq, Option.map_eq_none_iff]

theorem match_incremental (h : Twin L p s t) (hx : L.live x) (hn : n < p.nodes) :
    Match L p (Solver.incremental x n) (Solver.incremental x (L.node n)) s t := by
  refine Coupled.get ?_
  rw [(h.solver x hx).node]
  cases ha : (s.solver x).node with
  | none => exact Coupled.raise h.like
  | some a =>
    have hsize := h.placed x a hx ha
    have htext :=
      h.heap.toString (some a) (s.heap.root_lt_size hsize) (Nat.lt_of_lt_of_le hn h.nodes)
    rw [← h.heap.root, Option.map_some] at htext
    dsimp only [Option.map_some]
    rw [htext, h.header Constant.incremental hsize, h.heap.path]
    refine Coupled.bind_ofExcept (f := id) (by rw [Except.map_id]; rfl) h.like fun text _ => ?_
    refine Coupled.bind ((h.match_write x (.refl _) text.1 _ _).leaves (leaves_write _ _ _ _))
      fun _ _ u v ⟨⟨_, hu⟩, hs⟩ => ?_
    have hd := hu.solver x hx
    have hnode : (u.solver x).node = some a := by rw [hs, ha]
    refine Coupled.bind (hu.modifySolver ⟨hd.name, hd.node, hd.started, rfl⟩ (hu.parked x hx)
      (fun m => hu.placed x m hx) fun _ ho => ?_) fun _ _ u₁ v₁ ⟨⟨_, hu₁⟩, hs₁⟩ => ?_
    · cases ho
    have hnode₁ : (u₁.solver x).node = some a := by rw [hs₁, hnode]
    refine Coupled.bind (hu₁.match_now.leaves leaves_now) fun time _ u₂ v₂ ⟨⟨htime, hu₂⟩, hs₂⟩ => ?_
    subst htime
    have hd₂ := hu₂.solver x hx
    refine Match.bind (hu₂.match_modifySolver ⟨hd₂.name, hd₂.node, rfl, hd₂.orWaiting⟩ ?_
      (fun m => hu₂.placed x m hx) fun o => hu₂.waiting x o hx) fun _ u₃ v₃ hu₃ => ?_
    · intro hnone
      simp only [hs₂, hnode₁] at hnone
      cases hnone
    refine Match.bind (hu₃.match_markStarted hn) fun _ u₄ v₄ hu₄ => ?_
    have hd₄ := hu₄.solver x hx
    refine hu₄.match_modifySolver ⟨hd₄.name, rfl, hd₄.started, hd₄.orWaiting⟩ ?_ ?_
      fun o => hu₄.waiting x o hx
    · intro hnone
      cases hnone
    · intro m hm
      cases hm
      exact Nat.lt_of_lt_of_le hn hu₄.nodes

theorem match_setLemmaServer (h : Twin L p s t) (lemmaServer : Option SockId) :
    Match L p (Solver.setLemmaServer x lemmaServer) (Solver.setLemmaServer x lemmaServer)
      s t := by
  refine Coupled.get ?_
  rw [h.config, h.listening]
  exact h.match_write x (.refl _) "" none none

theorem match_askPartitions (h : Twin L p s t) (hx : L.live x) (n : Nat) :
    Match L p (Solver.askPartitions x n) (Solver.askPartitions x n) s t := by
  refine Match.bind (h.match_recount _ (· + n) fun _ => rfl) fun _ s t h => Coupled.get ?_
  rw [(h.solver x hx).node]
  cases hnode : (s.solver x).node with
  | none => exact Coupled.raise h.like
  | some node =>
    have hsize := h.placed x node hx hnode
    refine h.fit fun h => ?_
    dsimp only [Option.map_some]
    rw [h.header Constant.partition hsize]
    refine Match.bind (h.match_write x (.refl _) "" _ _) fun _ u v hu => Coupled.get ?_
    have hmade := hu.heap.newOr node ""
    rcases hn : u.heap.newOr node with e | ⟨o, g⟩
    · rcases hm : v.heap.newOr (L.node node) with e' | ⟨o', g'⟩
      · rw [hn, hm] at hmade
        obtain rfl : e' = e := hmade
        exact ⟨rfl, hu.like⟩
      · rw [hn, hm] at hmade
        exact hmade.elim
    · rcases hm : v.heap.newOr (L.node node) with e' | ⟨o', g'⟩
      · rw [hn, hm] at hmade
        exact hmade.elim
      · rw [hn, hm] at hmade
        obtain ⟨rfl, ho, hg, e⟩ := hmade
        have hgrown : u.heap.size ≤ g.size := hg ▸ Nat.le_succ _
        refine Coupled.bind_ofExcept (f := fun r => (L.node r.1, g')) rfl hu.like fun r hr => ?_
        cases hr
        have hfit : Twin L { p.at s with nodes := g.size } { u with heap := g } { v with heap := g' } :=
          (hu.withHeap e hgrown).withNodes (Nat.le_refl _)
        refine Coupled.post (Q := Kept L { p.at s with nodes := g.size }) ?_
          fun _ _ w _ hw => ⟨hw.1, hw.2.lower ?_⟩
        · refine Match.bind (Coupled.modify ⟨rfl, hfit⟩) fun _ u₂ v₂ hu₂ => ?_
          refine Match.bind (hu₂.match_modifyNode ?_ _) fun _ u₃ v₃ hu₃ => ?_
          · exact Nat.lt_of_lt_of_le hsize (Nat.le_trans hu.nodes (Nat.le_trans hgrown hu₂.nodes))
          · have hd := hu₃.solver x hx
            refine hu₃.match_modifySolver ⟨hd.name, hd.node, hd.started, ?_⟩ (hu₃.parked x hx)
              (fun m => hu₃.placed x m hx) fun m hm => ?_
            · rw [hd.orWaiting, List.map_append, List.map_singleton]
            · rcases List.mem_append.mp hm with hm | hm
              · exact hu₃.waiting x m hx hm
              · rw [List.mem_singleton.mp hm, ho]
                exact Nat.lt_of_lt_of_le (hg ▸ Nat.lt_succ_self _) hu₃.nodes
        · exact Nat.le_trans hu.nodes hgrown

theorem match_recounted (h : Twin L p s t) (o : NodeId) :
    Match L p (Solver.recount o) (Solver.recount (L.node o)) s t := by
  refine Coupled.get ?_
  rw [h.config, h.heap.len]
  cases s.config.partitionPolicy[1]? with
  | none => exact Coupled.raise h.like
  | some j =>
    exact Coupled.when Iff.rfl (fun _ => h.match_recount _ (fun n => n - j + s.heap.len o)
      fun _ => rfl) fun _ => ⟨rfl, h⟩

/-- The same message, with the node that has got its partitions. -/
def SameReceived (L : Link) (p : Marks) (r r' : Solver.Received) (s t : State) : Prop :=
  (r' = { r with partitionRecieved := r.partitionRecieved.map L.node } ∧
    ∀ n, r.partitionRecieved = some n → n < s.heap.size) ∧ Twin L p s t

theorem sameReceived_of_none (h : Twin L p s t) {r : Solver.Received}
    (hr : r.partitionRecieved = none) : SameReceived L p r r s t := by
  refine ⟨⟨?_, fun n hn => ?_⟩, h⟩
  · rw [hr]
    cases r
    cases hr
    rfl
  · rw [hr] at hn
    cases hn

theorem match_readPartitions (h : Twin L p s t) (hx : L.live x) (header : Header)
    (payload : Payload) :
    Coupled (Solver.readPartitions x header payload) (Solver.readPartitions x header payload)
      (SameReceived L p) (Like L) s t := by
  refine Coupled.get ?_
  have hd := h.solver x hx
  simp only [hd.orWaiting, List.getLast?_map]
  cases ho : (s.solver x).orWaiting.getLast? with
  | none => exact Coupled.pure (sameReceived_of_none h rfl)
  | some o =>
    have hmem : o ∈ (s.solver x).orWaiting := List.mem_of_getLast? ho
    have hsize := h.waiting x o hx hmem
    dsimp only [Option.map_some]
    have hdrop : Match L p
        (Server.modifySolver x fun d => { d with orWaiting := (s.solver x).orWaiting.dropLast })
        (Server.modifySolver x fun d =>
          { d with orWaiting := ((s.solver x).orWaiting.map L.node).dropLast }) s t :=
      h.match_modifySolver ⟨hd.name, hd.node, hd.started, (List.map_dropLast ..).symm⟩
        (h.parked x hx) (fun m => h.placed x m hx)
        fun m hm => h.waiting x m hx (List.dropLast_subset _ hm)
    have hleave := hdrop.leaves (f := State.heap) fun _ => rfl
    refine Coupled.bind hleave fun _ _ u v hk => ?_
    obtain ⟨⟨_, hu⟩, hheap⟩ := hk
    have keep {g g' : Heap} (e : g.Embeds L.node g') (hg : s.heap.size ≤ g.size) :
        Match L p (modifyHeap fun _ => g) (modifyHeap fun _ => g') u v :=
      hu.match_modifyHeap e (by rwa [hheap])
    cases payload with
    | none =>
      exact Match.bind (keep (h.heap.clear o) (Nat.le_refl _)) fun _ u₁ v₁ hu₁ =>
        Coupled.pure (sameReceived_of_none hu₁ rfl)
    | some text =>
      obtain ⟨hfail, hgrown, e⟩ := h.heap.addAnds o ((Solver.pieces text).map Solver.assertText)
      dsimp only
      rw [hfail]
      cases (s.heap.addAnds o ((Solver.pieces text).map Solver.assertText)).1 with
      | some _ =>
        exact Match.bind (keep (e.clear o) hgrown) fun _ u₁ v₁ hu₁ =>
          Coupled.pure (sameReceived_of_none hu₁ rfl)
      | none =>
        rw [e.parent, e.len]
        set g := (s.heap.addAnds o ((Solver.pieces text).map Solver.assertText)).2 with hg
        have hfit := (hu.withHeap e (hheap ▸ hgrown)).withNodes (Nat.le_refl g.size)
        refine Coupled.post (Q := SameReceived L { p with nodes := g.size }) ?_ fun _ _ w _ hw =>
          ⟨hw.1, hw.2.lower (Nat.le_trans h.nodes hgrown)⟩
        refine Match.bind (Coupled.modify ⟨rfl, hfit⟩) fun _ u₁ v₁ hu₁ => ?_
        cases hp : g.parent o with
        | none => exact Coupled.raise hu₁.like
        | some p =>
          have hsize : p < g.size := Nat.lt_trans (g.parent_lt hp) (g.lt_size hp)
          refine Match.bind (Coupled.when ?_ (fun _ => hu₁.match_modifyHeap (hu₁.heap.clear o)
            (Nat.le_refl _)) fun _ => ⟨rfl, hu₁⟩) fun _ u₂ v₂ hu₂ => ?_
          · rw [e.status hsize]
          · refine Match.bind (hu₂.match_recounted o)
              fun _ u₃ v₃ hu₃ => Coupled.pure ⟨⟨rfl, ?_⟩, hu₃⟩
            intro n hn
            cases hn
            exact Nat.lt_of_lt_of_le hsize hu₃.nodes

theorem match_setStatus (h : Twin L p s t) (hn : n < s.heap.size) (status : SolveStatus) :
    Match L p (modifyHeap fun h => h.setStatus n status)
      (modifyHeap fun h => h.setStatus (L.node n) status) s t :=
  h.match_modifyHeap (h.heap.setStatus hn status)
    (Nat.le_of_eq (congrArg Forest.size (Heap.sameTree_setStatus s.heap n status).forest).symm)

theorem match_readStatus (h : Twin L p s t) (hx : L.live x) (hn : n < p.nodes)
    (status : SolveStatus) :
    Match L p (Solver.readStatus x n status) (Solver.readStatus x (L.node n) status) s t := by
  have hd := h.solver x hx
  refine Match.bind (h.match_modifySolver ⟨hd.name, hd.node, hd.started, ?_⟩ (h.parked x hx)
    (fun m => h.placed x m hx) fun m hm => h.waiting x m hx (List.dropLast_subset _ hm))
    fun _ s t h => ?_
  · rw [hd.orWaiting, List.map_dropLast]
  have hsize := Nat.lt_of_lt_of_le hn h.nodes
  refine Match.bind (h.match_setStatus hsize status) fun _ s t h => ?_
  refine Coupled.when Iff.rfl (fun _ => ?_) fun _ => ⟨rfl, h⟩
  have hn' := Nat.lt_of_lt_of_le hn h.nodes
  refine h.fit fun h => Coupled.gets ?_
  rw [h.heap.all]
  refine h.match_forEach (P := (· < s.heap.size)) (fun m hm => (Heap.mem_all.mp hm).lt_size hn')
    fun m u v hm hu => Coupled.gets ?_
  have hm := Nat.lt_of_lt_of_le hm hu.nodes
  refine Coupled.when ?_ (fun _ => hu.match_setStatus hm .unsat) fun _ => ⟨rfl, hu⟩
  rw [hu.heap.status hm, hu.heap.isAnd hm]

theorem match_read (h : Twin L p s t) (hx : L.live x) (header : Header) (payload : Payload) :
    Coupled (Solver.read x header payload) (Solver.read x header payload) (SameReceived L p)
      (Like L) s t := by
  have same (r : Solver.Received) (hr : r.partitionRecieved = none) {u v : State}
      (hu : Twin L p u v) : Coupled (pure r : M Solver.Received) (pure r) (SameReceived L p)
        (Like L) u v :=
    Coupled.pure (sameReceived_of_none hu hr)
  refine Coupled.get ?_
  cases header.lookup Constant.report with
  | none => exact same _ rfl h
  | some report =>
    have hd := h.solver x hx
    dsimp only
    rw [hd.node]
    cases hnode : (s.solver x).node with
    | none => exact same _ rfl h
    | some n =>
      have hsize := h.placed x n hx hnode
      cases header.lookup Constant.name with
      | none => exact same _ rfl h
      | some name =>
        cases header.lookup Constant.node with
        | none => exact same _ rfl h
        | some path =>
          dsimp only [Option.map_some]
          refine Coupled.ite ?_ (fun _ => same _ rfl h) fun _ => ?_
          · rw [h.heap.root, h.heap.label _ (s.heap.root_lt_size hsize), h.heap.path]
          refine Coupled.ite ?_ (fun _ => h.match_readPartitions hx _ payload) fun _ => ?_
          · rw [hd.orWaiting, ne_eq, List.map_eq_nil_iff]
          cases SolveStatus.ofName? report with
          | none => exact same _ rfl h
          | some status =>
            refine Match.bind (h.fit fun h => h.match_readStatus hx hsize status)
              fun _ u v hu => same _ rfl hu

end Twin

end Smts.Server
