import Smts.Server.Termination

namespace Smts.Server

open Smts.Lib Smts.Lib.Prog

/-- The node has partitions, or a connected solver that is assigned to it waits for them. -/
def State.Served (s : State) (n : NodeId) : Prop :=
  (∃ o ∈ s.heap.children n, s.heap.children o ≠ []) ∨
    ∃ x, s.Connected x ∧ (s.solver x).node = some n ∧
      ∃ o ∈ s.heap.children n, o ∈ (s.solver x).orWaiting

/-- The unknown nodes of the current instance that partitions have been requested for are served. -/
def State.Obliged (s : State) : Prop :=
  ∀ i n, s.current = some i → n < s.heap.size → s.heap.root n = s.root i →
    s.heap.isAnd n = true → s.heap.status n = .unknown → (s.heap.attrs n).partitioning = true →
    s.Served n

/-- The solver does not wait for the partitions of a node that is unknown. -/
def State.Released (s : State) (x : SockId) : Prop :=
  ∀ n, (s.solver x).node = some n → (s.solver x).orWaiting ≠ [] → s.heap.status n ≠ .unknown

/-- The operation leaves no request behind: replies for unknown nodes have partitions, solvers that
are moved, stopped or disconnected do not wait for any, nor do solvers that report an unknown
status, and no node becomes unknown, or the current instance, with a request for it lost before. -/
def Act.Honours : Act → State → Prop
  | .reply x _ partitions, s => ∀ n, (s.solver x).node = some n → s.heap.status n = .unknown →
      ∃ ps, partitions = some ps ∧ ps ≠ []
  | .move x _ _, s | .leave x, s | .shut x, s => s.Released x
  | .report x n status, s => status = .unknown → (s.solver x).orWaiting = [] ∧
      (s.heap.status n = .unknown ∨ (s.heap.attrs n).partitioning = false ∨
        ∃ o ∈ s.heap.children n, s.heap.children o ≠ [])
  | .start i, s => ∀ n, n < s.heap.size → s.heap.root n = s.root i → s.heap.isAnd n = true →
      s.heap.status n = .unknown → (s.heap.attrs n).partitioning = true →
      ∃ o ∈ s.heap.children n, s.heap.children o ≠ []
  | _, _ => True

section Served

variable {s t : State} {n : NodeId} {x : SockId}

theorem State.Served.keep (h : s.Served n) (hg : s.heap.Grows t.heap)
    (waits : ∀ x, s.Connected x → (s.solver x).node = some n → (s.solver x).orWaiting ≠ [] →
      t.Connected x ∧ (t.solver x).node = (s.solver x).node ∧
        (t.solver x).orWaiting = (s.solver x).orWaiting) : t.Served n := by
  rcases h with ⟨o, ho, hne⟩ | ⟨x, hx, hn, o, ho, hw⟩
  · exact .inl ⟨o, (hg.children n).subset ho,
      fun he => hne (List.prefix_nil.mp (he ▸ hg.children o))⟩
  · obtain ⟨hc, hnode, hwait⟩ := waits x hx hn (List.ne_nil_of_mem hw)
    exact .inr ⟨x, hc, hnode.trans hn, o, (hg.children n).subset ho, hwait ▸ hw⟩

/-- Only one solver changes, which does not wait for the partitions of the node. -/
theorem State.Served.update (h : s.Served n) (hg : s.heap.Grows t.heap)
    (connected : ∀ y, s.Connected y → t.Connected y) (others : ∀ y, y ≠ x → t.solver y = s.solver y)
    (own : (s.solver x).node = some n → (s.solver x).orWaiting = []) : t.Served n := by
  refine h.keep hg fun y hy hn hw => ?_
  have hyx : y ≠ x := by
    rintro rfl
    exact hw (own hn)
  exact ⟨connected y hy, by rw [others y hyx], by rw [others y hyx]⟩

/-- No node becomes unknown or is asked for partitions, and who waits for those of an unknown node
stays. -/
theorem State.Obliged.keep (hs : s.Obliged) (hg : s.heap.Grows t.heap)
    (current : ∀ i, t.current = some i → s.current = some i ∧ t.root i = s.root i)
    (status : ∀ n, n < s.heap.size → t.heap.status n = .unknown → s.heap.status n = .unknown)
    (partitioning : ∀ n, n < s.heap.size → (t.heap.attrs n).partitioning = true →
      (s.heap.attrs n).partitioning = true)
    (new : ∀ n, s.heap.size ≤ n → n < t.heap.size → (t.heap.attrs n).partitioning = false)
    (waits : ∀ n x, t.heap.status n = .unknown → s.Connected x → (s.solver x).node = some n →
      (s.solver x).orWaiting ≠ [] → t.Connected x ∧ (t.solver x).node = (s.solver x).node ∧
        (t.solver x).orWaiting = (s.solver x).orWaiting) : t.Obliged := by
  intro i n hi hn hroot hand hst hask
  by_cases hlt : n < s.heap.size
  · obtain ⟨hi', hr⟩ := current i hi
    rw [hg.root n hlt, hr] at hroot
    refine (hs i n hi' hlt hroot ((hg.isAnd hlt).symm.trans hand) (status n hlt hst)
      (partitioning n hlt hask)).keep hg fun x hx hnode hw => waits n x hst hx hnode hw
  · rw [new n (Nat.not_lt.mp hlt) hn] at hask
    cases hask

theorem State.Obliged.quiet (hs : s.Obliged) (hq : Quiet s t) : t.Obliged := by
  refine hs.keep (.of_eq hq.heap.forest hq.heap.label) (fun i hi => ⟨hq.current ▸ hi, hq.root i⟩)
    (fun n _ hst => (hq.heap.status n).symm.trans hst)
    (fun n _ hask => (hq.heap.partitioning n).symm.trans hask) (fun n hle hlt => ?_)
    fun n x _ hx _ _ => ⟨(hq.connected x).mpr hx, hq.node x, hq.orWaiting x⟩
  rw [hq.heap.forest] at hlt
  exact absurd hlt (Nat.not_lt.mpr hle)

/-- Only one solver changes, which does not wait. -/
theorem State.Obliged.release (hs : s.Obliged) (released : s.Released x) (heap : t.heap = s.heap)
    (current : t.current = s.current) (inst : t.inst = s.inst)
    (others : ∀ y, y ≠ x → (s.Connected y → t.Connected y) ∧ t.solver y = s.solver y) :
    t.Obliged := by
  refine hs.keep (heap ▸ .refl _) (fun i hi => ⟨current ▸ hi, by rw [State.root, inst]; rfl⟩)
    (fun n _ hst => heap ▸ hst) (fun n _ hask => heap ▸ hask)
    (fun n hle hlt => absurd (heap ▸ hlt) (Nat.not_lt.mpr hle)) fun n y hst hy hn hw => ?_
  have hyx : y ≠ x := by
    rintro rfl
    exact released n hn hw (heap ▸ hst)
  obtain ⟨hc, hsolver⟩ := others y hyx
  exact ⟨hc hy, by rw [hsolver], by rw [hsolver]⟩

end Served

section Reports

variable {h : Heap} {n m : Nat} {st : SolveStatus}

theorem Heap.setStatus_known (hst : st ≠ .unknown) (hm : (h.setStatus n st).status m = .unknown) :
    h.status m = .unknown := by
  refine setStatus_rule st (P := fun g => g.status m = .unknown → h.status m = .unknown)
    (J := fun _ => True) (fun g k hg _ hw => ?_) (fun _ _ _ _ _ _ _ _ => trivial)
    (fun _ _ _ _ _ _ _ => trivial) id trivial hm
  rw [Heap.modify_status] at hw
  split at hw
  · exact absurd hw hst
  · exact hg hw

theorem Heap.report_known (hst : st ≠ .unknown) (hm : (h.report n st).status m = .unknown) :
    h.status m = .unknown ∧ m ≠ n := by
  have hkept : (h.setStatus n st).status m = .unknown := by
    rw [Heap.report] at hm
    split at hm
    · exact Heap.markUnsat_rule (P := fun g => g.status m = .unknown → _ = _)
        (fun g c hg _ _ _ hm => hg (setStatus_known (by decide) hm)) id hm
    · exact hm
  refine ⟨setStatus_known hst hkept, ?_⟩
  rintro rfl
  rw [Heap.setStatus, status_setStatusAux_self] at hkept
  exact hst hkept

/-- A node that becomes unknown above the one that is reported has partitions. -/
theorem Heap.setUnknown_cases (ha : h.Attached n) (hand : h.isAnd n = true)
    (hm : (h.setStatus n .unknown).status m = .unknown) (hmand : h.isAnd m = true) :
    h.status m = .unknown ∨ m = n ∨ ∃ o ∈ h.children m, h.children o ≠ [] := by
  refine (setStatus_rule .unknown (P := fun g => SameTree h g ∧ (g.status m = .unknown →
      h.status m = .unknown ∨ m = n ∨ ∃ o ∈ h.children m, h.children o ≠ []))
    (J := fun k => h.Attached k ∧ (h.isAnd k = true → k = n ∨ ∃ o ∈ h.children k, h.children o ≠ []) ∧
      (h.isOr k = true → h.children k ≠ []))
    ?_ ?_ ?_ ⟨.refl h, .inl⟩ ⟨ha, fun _ => .inl rfl, fun hor => ?_⟩).2 hm
  · rintro g k ⟨hg, hP⟩ ⟨-, hJ, -⟩
    refine ⟨hg.write k, fun hw => ?_⟩
    rw [Heap.modify_status] at hw
    split at hw
    · next hmk =>
      subst hmk
      exact .inr (hJ hmand)
    · exact hP hw
  · rintro g k p ⟨hg, -⟩ ⟨hk, -, -⟩ hkand hp -
    rw [hg.truthyParent] at hp
    rw [hg.isAnd] at hkand
    obtain ⟨hpar, hne⟩ := Heap.truthyParent_eq_some.mp hp
    refine ⟨hk.parent hpar, fun hpand => ?_, fun _ => hne⟩
    rw [isAnd_iff, ← isAnd_of_parent hpar, hkand] at hpand
    cases hpand
  · rintro g k p ⟨hg, -⟩ ⟨hk, -, hJ⟩ hkor hp
    rw [hg.forest] at hp
    rw [hg.isOr] at hkor
    refine ⟨hk.parent hp, fun _ => .inr ⟨k, hk.mem_of_parent hp, hJ hkor⟩, fun hpor => ?_⟩
    rw [isOr_of_parent hp, isAnd_iff, hpor] at hkor
    cases hkor
  · rw [isAnd_iff, hor] at hand
    cases hand

end Reports

section Actions

variable {s t : State} {hindered : Prop}

theorem State.Obliged.act (hs : s.Obliged) (hc : Consistent s) (a : Act)
    (ha : a.Allowed hindered s) (hh : a.Honours s) : (a.apply s).Obliged := by
  have hg : s.heap.Grows (a.apply s).heap := hc.seated.grows a ha.1
  cases a with
  | solve x n m =>
    refine hs.release (x := x) (fun k hk => ?_) rfl rfl rfl fun y hy =>
      ⟨id, Function.update_of_ne hy _ _⟩
    rw [ha.1.1] at hk
    cases hk
  | move x n m => exact hs.release hh rfl rfl rfl fun y hy => ⟨id, Function.update_of_ne hy _ _⟩
  | leave x => exact hs.release hh rfl rfl rfl fun y hy => ⟨id, Function.update_of_ne hy _ _⟩
  | shut x =>
    refine hs.release hh rfl rfl rfl fun y hy => ⟨fun hy' => ⟨?_, hy'.2⟩, rfl⟩
    exact List.mem_filter.mpr ⟨hy'.1, by simpa using hy⟩
  | delist x =>
    by_cases hx : s.kind x = .solver
    · refine hs.release (x := x) (fun n hn => ?_) rfl rfl rfl fun y hy =>
        ⟨fun hy' => ⟨List.mem_filter.mpr ⟨hy'.1, by simpa using hy⟩, hy'.2⟩, rfl⟩
      rw [ha.2 hx] at hn
      cases hn
    · refine hs.keep hg (fun i hi => ⟨hi, rfl⟩) (fun _ _ h => h) (fun _ _ h => h)
        (fun n hle hlt => absurd hlt (Nat.not_lt.mpr hle)) fun n y _ hy _ _ => ⟨⟨?_, hy.2⟩, rfl, rfl⟩
      refine List.mem_filter.mpr ⟨hy.1, ?_⟩
      have hyx : y ≠ x := by
        rintro rfl
        exact hx hy.2
      simpa using hyx
  | enlist x =>
    exact hs.keep hg (fun i hi => ⟨hi, rfl⟩) (fun _ _ h => h) (fun _ _ h => h)
      (fun n hle hlt => absurd hlt (Nat.not_lt.mpr hle))
      fun n y _ hy _ _ => ⟨⟨List.mem_append_left _ hy.1, hy.2⟩, rfl, rfl⟩
  | create k name =>
    refine hs.keep hg (fun i hi => ⟨hi, rfl⟩) (fun _ _ h => h) (fun _ _ h => h)
      (fun n hle hlt => absurd hlt (Nat.not_lt.mpr hle)) fun n y _ hy _ _ => ?_
    have hne : y ≠ s.nextSock := Nat.ne_of_lt (hc.sockets y hy.1)
    have hsolver : (s.create k name).solver y = s.solver y := by
      rw [State.create]
      split
      · exact Function.update_of_ne hne _ _
      · rfl
    exact ⟨⟨hy.1, (Function.update_of_ne hne _ _).trans hy.2⟩, by rw [← hsolver]; rfl,
      by rw [← hsolver]; rfl⟩
  | submit name l =>
    have hattrs {m : NodeId} (hm : m < s.heap.size) : (s.heap.addRoot l).2.attrs m = s.heap.attrs m :=
      Function.update_of_ne (Nat.ne_of_lt hm) _ _
    refine hs.keep hg (fun i hi => ⟨hi, ?_⟩) (fun n hn hst => ?_) (fun n hn hask => ?_)
      (fun n hle hlt => ?_) fun n y _ hy _ _ => ⟨hy, rfl, rfl⟩
    · exact congrArg Instance.root (Function.update_of_ne (Nat.ne_of_lt (hc.current i hi)) _ _)
    · exact (congrArg Attrs.status (hattrs hn)).symm.trans hst
    · exact (congrArg Attrs.partitioning (hattrs hn)).symm.trans hask
    · exact congrArg Attrs.partitioning ((Heap.Sprouts.addRoot s.heap l).new n hle hlt).1
  | split root p =>
    have hattrs {m : NodeId} (hm : m < s.heap.size) :=
      Heap.Sprouts.split_attrs (p := p) ha.1.1 ha.1.2.1 hm
    refine hs.keep hg (fun i hi => ⟨hi, rfl⟩) (fun n hn hst => ?_) (fun n hn hask => ?_)
      (fun n hle hlt => ?_) fun n y _ hy _ _ => ⟨hy, rfl, rfl⟩
    · exact (congrArg Attrs.status (hattrs hn)).symm.trans hst
    · exact (congrArg Attrs.partitioning (hattrs hn)).symm.trans hask
    · have hsprouts := Heap.Sprouts.split (p := p) ha.1.1 ha.1.2.1 ha.1.2.2.2
      exact congrArg Attrs.partitioning (hsprouts.new n hle hlt).1
  | process n =>
    have hf := Fixed.act (.process n) s trivial
    exact hs.keep hg (fun i hi => ⟨hi, rfl⟩) (fun m _ h => (hf.status m).symm.trans h)
      (fun m _ h => (hf.partitioning m).symm.trans h)
      (fun n hle hlt => absurd hlt (Nat.not_lt.mpr hle)) fun n y _ hy _ _ => ⟨hy, rfl, rfl⟩
  | conclude i shown =>
    intro j n hj
    cases hj
  | start i =>
    intro j n hj hn hroot hand hst hask
    cases hj
    exact .inl (hh n hn hroot hand hst hask)
  | ask x n =>
    obtain ⟨hlt, hnand, _⟩ := hc.seated.placed x n ha.1
    have hattrs (m : NodeId) := Heap.ask_attrs hlt hnand m
    intro i m hi hm hroot hand hst hask
    by_cases hmn : m = n
    · refine .inr ⟨x, ha.2.1, ?_, s.heap.size, ?_, ?_⟩
      · exact (congrArg SolverData.node (Function.update_self _ _ _)).trans (hmn ▸ ha.1)
      · show s.heap.size ∈ (s.heap.ask n).children m
        rw [Heap.ask_forest hlt hnand, hmn]
        simp [Forest.addChild]
      · show s.heap.size ∈ ((Function.update s.solver x _) x).orWaiting
        rw [Function.update_self]
        exact List.mem_append_right _ (List.mem_singleton_self _)
    · change ((s.heap.ask n).attrs m).partitioning = true at hask
      change (s.heap.ask n).status m = .unknown at hst
      rw [hattrs, if_neg hmn] at hask
      rw [Heap.status, hattrs, if_neg hmn] at hst
      split at hask
      · cases hask
      · next hms =>
        rw [if_neg hms] at hst
        have hm' : m < s.heap.size := by
          change m < (s.heap.ask n).size at hm
          rw [Heap.ask_forest hlt hnand] at hm
          exact Nat.lt_of_le_of_ne (Nat.le_of_lt_succ hm) hms
        refine (hs i m hi hm' ((hg.root m hm').symm.trans hroot) ((hg.isAnd hm').symm.trans hand) hst
          hask).update hg (fun _ hy => hy) (fun y hy => Function.update_of_ne hy _ _) fun hn => ?_
        exact absurd (Option.some.inj (hn.symm.trans ha.1)) hmn
  | report x n status =>
    obtain ⟨_, hnand, hatt⟩ := hc.seated.placed x n ha.1
    have hsame := Heap.sameTree_report s.heap n status
    intro i m hi hm hroot hand hst hask
    change (s.heap.report n status).status m = .unknown at hst
    have hm' : m < s.heap.size := by
      change m < (s.heap.report n status).size at hm
      rwa [hsame.forest] at hm
    have hmand : s.heap.isAnd m = true := (hg.isAnd hm').symm.trans hand
    have hask' : (s.heap.attrs m).partitioning = true := (hsame.partitioning m).symm.trans hask
    have hserved (hu : s.heap.status m = .unknown) : s.Served m :=
      hs i m hi hm' ((hg.root m hm').symm.trans hroot) hmand hu hask'
    by_cases hu : status = .unknown
    · subst hu
      obtain ⟨hwaiting, hcase⟩ := hh rfl
      have hserved' : s.Served m := by
        rcases Heap.setUnknown_cases hatt hnand hst hmand with hold | rfl | hpart
        · exact hserved hold
        · rcases hcase with hold | hnot | hpart
          · exact hserved hold
          · rw [hnot] at hask'
            cases hask'
          · exact .inl hpart
        · exact .inl hpart
      exact hserved'.update hg (fun _ hy => hy) (fun y hy => Function.update_of_ne hy _ _)
        fun _ => hwaiting
    · obtain ⟨hold, hmn⟩ := Heap.report_known hu hst
      refine (hserved hold).update hg (fun _ hy => hy) (fun y hy => Function.update_of_ne hy _ _)
        fun hn => ?_
      exact absurd (Option.some.inj (hn.symm.trans ha.1)) hmn
  | reply x o partitions =>
    obtain ⟨hlt, hor, he, k, hk, hmem⟩ := hc.seated.getLast_lt ha.1
    have hattrs {m : NodeId} (hm : m < s.heap.size) := Heap.reply_attrs hlt hor partitions hm
    intro i m hi hm hroot hand hst hask
    by_cases hm' : m < s.heap.size
    · have hst' : s.heap.status m = .unknown := (congrArg Attrs.status (hattrs hm')).symm.trans hst
      by_cases hx : (s.solver x).node = some m
      · obtain ⟨ps, rfl, hps⟩ := hh m hx hst'
        obtain rfl : k = m := Option.some.inj (hk.symm.trans hx)
        refine .inl ⟨o, (hg.children k).subset hmem, fun hnil => hps ?_⟩
        have hlen : ps.length ≤ (s.heap.reply o (some ps)).len o :=
          Heap.reply_len hlt hor (s.heap.parent_of_mem hmem) hst'
        exact List.length_eq_zero_iff.mp (Nat.le_zero.mp
          (Nat.le_trans hlen (Nat.le_of_eq (congrArg List.length hnil))))
      · refine (hs i m hi hm' ((hg.root m hm').symm.trans hroot) ((hg.isAnd hm').symm.trans hand) hst'
          ((congrArg Attrs.partitioning (hattrs hm')).symm.trans hask)).update hg (fun _ hy => hy)
          (fun y hy => Function.update_of_ne hy _ _) fun hn => absurd hn hx
    · have hnew := Heap.reply_new hlt hor partitions (Nat.not_lt.mp hm') hm
      change ((s.heap.reply o partitions).attrs m).partitioning = true at hask
      rw [hnew] at hask
      cases hask
  | quiet | idleAdd | idleDrop | idleSort | verdict | drop =>
    exact hs.keep hg (fun i hi => ⟨hi, rfl⟩) (fun _ _ h => h) (fun _ _ h => h)
      (fun n hle hlt => absurd hlt (Nat.not_lt.mpr hle)) fun n y _ hy _ _ => ⟨hy, rfl, rfl⟩

end Actions

section Orders

variable {s t : State} {hindered : Prop} {h g : Heap} {n : NodeId} {x : SockId}

/-- AND nodes have at most one OR child, and those that partitions have been requested for have
one. -/
structure Heap.Slotted (h : Heap) : Prop where
  single : ∀ n, n < h.size → h.isAnd n = true → h.len n ≤ 1
  asked : ∀ n, n < h.size → (h.attrs n).partitioning = true → h.children n ≠ []

theorem Heap.Slotted.extend (hs : h.Slotted) (hg : h.Sprouts g) : g.Slotted where
  single m hm hand := by
    by_cases hlt : m < h.size
    · have hand' := (hg.grows.isAnd hlt).symm.trans hand
      exact Nat.le_trans (hg.len m hlt hand') (Nat.max_le.mpr ⟨hs.single m hlt hand', Nat.le_refl 1⟩)
    · rw [Heap.len, (hg.new m (Nat.not_lt.mp hlt) hm).2 hand]
      exact Nat.zero_le 1
  asked m hm hask := by
    by_cases hlt : m < h.size
    · rcases hg.asked m hlt hask with hold | hnew
      · exact fun he => hs.asked m hlt hold (List.prefix_nil.mp (he ▸ hg.grows.children m))
      · exact hnew.2
    · rw [(hg.new m (Nat.not_lt.mp hlt) hm).1] at hask
      cases hask

theorem Heap.Slotted.congr (hs : h.Slotted) (forest : g.toForest = h.toForest)
    (label : g.label = h.label)
    (partitioning : ∀ n, (g.attrs n).partitioning = (h.attrs n).partitioning) : g.Slotted where
  single m := by
    rw [forest, Heap.isAnd_congr label, Heap.len, forest]
    exact hs.single m
  asked m := by
    rw [forest, partitioning]
    exact hs.asked m

/-- Solvers wait for the partitions of nodes that partitions have been requested for. -/
structure State.Booked (s : State) : Prop where
  slotted : s.heap.Slotted
  wanted : ∀ x n, (s.solver x).node = some n → (s.solver x).orWaiting ≠ [] →
    (s.heap.attrs n).partitioning = true

theorem State.Booked.quiet (hb : s.Booked) (hq : Quiet s t) : t.Booked where
  slotted := hb.slotted.congr hq.heap.forest hq.heap.label hq.heap.partitioning
  wanted x n := by
    rw [hq.node, hq.orWaiting, hq.heap.partitioning]
    exact hb.wanted x n

/-- The trees keep their requests, and solvers do not get new ones. -/
theorem State.Booked.keep (hb : s.Booked) (hseat : Seated s) (slotted : t.heap.Slotted)
    (partitioning : ∀ n, n < s.heap.size → (s.heap.attrs n).partitioning = true →
      (t.heap.attrs n).partitioning = true)
    (solver : ∀ x n, (t.solver x).node = some n → (t.solver x).orWaiting ≠ [] →
      (s.solver x).node = some n ∧ (s.solver x).orWaiting ≠ []) : t.Booked where
  slotted := slotted
  wanted x n hn hw := by
    obtain ⟨hn', hw'⟩ := solver x n hn hw
    exact partitioning n (hseat.placed x n hn').1 (hb.wanted x n hn' hw')

theorem Seated.node_of_waiting (hs : Seated s) (hw : (s.solver x).orWaiting ≠ []) :
    ∃ n, (s.solver x).node = some n ∧ ∃ o ∈ (s.solver x).orWaiting,
      o ∈ s.heap.children n ∧ s.heap.children o = [] := by
  obtain ⟨o, ho⟩ := List.exists_mem_of_ne_nil _ hw
  obtain ⟨n, hn, hmem, he⟩ := hs.waiting x o ho
  exact ⟨n, hn, o, ho, hmem, he⟩

/-- Only one solver changes, and its requests are none or those it had. -/
theorem State.Booked.update (hb : s.Booked) (hseat : Seated s) (slotted : t.heap.Slotted)
    (partitioning : ∀ n, n < s.heap.size → (s.heap.attrs n).partitioning = true →
      (t.heap.attrs n).partitioning = true)
    (others : ∀ y, y ≠ x → t.solver y = s.solver y)
    (own : ∀ n, (t.solver x).node = some n → (t.solver x).orWaiting ≠ [] →
      (s.solver x).node = some n ∧ (s.solver x).orWaiting ≠ []) : t.Booked := by
  refine hb.keep hseat slotted partitioning fun y n hn hw => ?_
  by_cases hy : y = x
  · subst hy
    exact own n hn hw
  · rw [others y hy] at hn hw
    exact ⟨hn, hw⟩

theorem State.Booked.act (hb : s.Booked) (hc : Consistent s) (a : Act) (ha : a.Allowed hindered s) :
    (a.apply s).Booked := by
  have same (x : SockId) (n : NodeId) (hn : (s.solver x).node = some n)
      (hw : (s.solver x).orWaiting ≠ []) :
      (s.solver x).node = some n ∧ (s.solver x).orWaiting ≠ [] := ⟨hn, hw⟩
  have drop {l : List NodeId} (h : l.dropLast ≠ []) : l ≠ [] := by
    rintro rfl
    exact h rfl
  cases a with
  | solve x m msg =>
    refine hb.update (x := x) hc.seated hb.slotted (fun _ _ h => h)
      (fun y hy => Function.update_of_ne hy _ _) fun n _ hw => ?_
    have hw' : (s.solver x).orWaiting ≠ [] := by simpa [Act.apply, State.modifySolver] using hw
    obtain ⟨k, hk, _⟩ := hc.seated.node_of_waiting hw'
    rw [ha.1.1] at hk
    cases hk
  | move x m msg =>
    refine hb.update (x := x) hc.seated hb.slotted (fun _ _ h => h)
      (fun y hy => Function.update_of_ne hy _ _) fun n _ hw => ?_
    simp [Act.apply, State.modifySolver] at hw
  | leave x =>
    refine hb.update (x := x) hc.seated hb.slotted (fun _ _ h => h)
      (fun y hy => Function.update_of_ne hy _ _) fun n _ hw => ?_
    simp [Act.apply, State.modifySolver, Solver.reset] at hw
  | ask x m =>
    obtain ⟨hlt, hand, _⟩ := hc.seated.placed x m ha.1
    have hattrs (k : NodeId) := Heap.ask_attrs hlt hand k
    refine ⟨hb.slotted.extend (.ask hlt hand ha.2.2.1), fun y n hn hw => ?_⟩
    change ((s.heap.ask m).attrs n).partitioning = true
    rw [hattrs]
    split
    · rfl
    · next hnm =>
      by_cases hy : y = x
      · have hn' : (s.solver x).node = some n := by
          subst hy
          simpa [Act.apply, State.modifySolver] using hn
        exact absurd (Option.some.inj (hn'.symm.trans ha.1)) hnm
      · have hsolver : ((Act.ask x m).apply s).solver y = s.solver y := Function.update_of_ne hy _ _
        rw [hsolver] at hn hw
        rw [if_neg (Nat.ne_of_lt (hc.seated.placed y n hn).1)]
        exact hb.wanted y n hn hw
  | report x m status =>
    have hsame := Heap.sameTree_report s.heap m status
    refine hb.update (x := x) hc.seated (hb.slotted.congr hsame.forest hsame.label hsame.partitioning)
      (fun n _ h => (hsame.partitioning n).trans h) (fun y hy => Function.update_of_ne hy _ _)
      fun n hn hw => ?_
    simp only [Act.apply, State.modifySolver, Function.update_self] at hn hw
    exact ⟨hn, drop hw⟩
  | reply x o partitions =>
    obtain ⟨hlt, hor, he, _⟩ := hc.seated.getLast_lt ha.1
    refine hb.update (x := x) hc.seated (hb.slotted.extend (.reply hlt hor he partitions))
      (fun n hn h => (congrArg Attrs.partitioning (Heap.reply_attrs hlt hor partitions hn)).trans h)
      (fun y hy => Function.update_of_ne hy _ _) fun n hn hw => ?_
    simp only [Act.apply, State.modifySolver, Function.update_self] at hn hw
    exact ⟨hn, drop hw⟩
  | process m =>
    have hf := Fixed.act (.process m) s trivial
    exact hb.keep hc.seated (hb.slotted.congr hf.forest hf.label hf.partitioning)
      (fun n _ h => (hf.partitioning n).trans h) same
  | conclude i shown =>
    refine hb.keep hc.seated hb.slotted (fun _ _ h => h) fun x n hn hw => ?_
    simp only [Act.apply, State.conclude] at hn hw
    split at hn
    · cases hn
    · next hx =>
      rw [if_neg hx] at hw
      exact ⟨hn, hw⟩
  | submit name l =>
    refine hb.keep hc.seated (hb.slotted.extend (.addRoot _ l)) (fun n hn h => ?_) same
    exact (congrArg Attrs.partitioning (Function.update_of_ne (Nat.ne_of_lt hn) _ _)).trans h
  | split root p =>
    refine hb.keep hc.seated (hb.slotted.extend (.split ha.1.1 ha.1.2.1 ha.1.2.2.2))
      (fun n hn h => ?_) same
    exact (congrArg Attrs.partitioning (Heap.Sprouts.split_attrs ha.1.1 ha.1.2.1 hn)).trans h
  | create k name =>
    refine hb.update (x := s.nextSock) hc.seated hb.slotted (fun _ _ h => h) (fun y hy => ?_)
      fun n hn hw => ?_
    · simp only [Act.apply, State.create]
      split
      · exact Function.update_of_ne hy _ _
      · rfl
    · simp only [Act.apply, State.create] at hn hw
      split at hn
      · rw [Function.update_self] at hn
        cases hn
      · next hk =>
        rw [if_neg hk] at hw
        exact ⟨hn, hw⟩
  | _ => exact hb.keep hc.seated hb.slotted (fun _ _ h => h) same

/-- The request for the partitions of the node is lost. -/
def State.Stranded (s : State) (n : NodeId) : Prop :=
  n < s.heap.size ∧ s.heap.isAnd n = true ∧ s.heap.status n = .unknown ∧
    (s.heap.attrs n).partitioning = true ∧ ¬ s.Served n

/-- The action is no report and no reply. -/
def Act.Mute : Act → Prop
  | .report .. | .reply .. => False
  | _ => True

theorem State.Stranded.keep (hn : s.Stranded n) (hg : s.heap.Grows t.heap)
    (status : t.heap.status n = s.heap.status n)
    (partitioning : (t.heap.attrs n).partitioning = (s.heap.attrs n).partitioning)
    (children : t.heap.children n = s.heap.children n)
    (below : ∀ o ∈ s.heap.children n, t.heap.children o = s.heap.children o)
    (waits : ∀ x, t.Connected x → (t.solver x).node = some n → ∀ o ∈ (t.solver x).orWaiting,
      s.Connected x ∧ (s.solver x).node = some n ∧ o ∈ (s.solver x).orWaiting) : t.Stranded n := by
  obtain ⟨hlt, hand, hst, hask, hserved⟩ := hn
  refine ⟨Nat.lt_of_lt_of_le hlt hg.size, (hg.isAnd hlt).trans hand, status.trans hst,
    partitioning.trans hask, fun h => hserved ?_⟩
  rcases h with ⟨o, ho, hne⟩ | ⟨x, hx, hnode, o, ho, hw⟩
  · rw [children] at ho
    exact .inl ⟨o, ho, below o ho ▸ hne⟩
  · obtain ⟨hx', hnode', hw'⟩ := waits x hx hnode o hw
    exact .inr ⟨x, hx', hnode', o, children ▸ ho, hw'⟩

/-- Only one solver changes, and does not come to wait for the partitions of the node. -/
theorem State.Stranded.update (hn : s.Stranded n) (hg : s.heap.Grows t.heap)
    (status : t.heap.status n = s.heap.status n)
    (partitioning : (t.heap.attrs n).partitioning = (s.heap.attrs n).partitioning)
    (children : t.heap.children n = s.heap.children n)
    (below : ∀ o ∈ s.heap.children n, t.heap.children o = s.heap.children o)
    (connected : ∀ y, t.Connected y → s.Connected y) (others : ∀ y, y ≠ x → t.solver y = s.solver y)
    (own : (t.solver x).node = some n → (t.solver x).orWaiting = []) : t.Stranded n := by
  refine hn.keep hg status partitioning children below fun y hy hnode o ho => ?_
  have hyx : y ≠ x := by
    rintro rfl
    rw [own hnode] at ho
    cases ho
  rw [others y hyx] at hnode ho
  exact ⟨connected y hy, hnode, ho⟩

theorem State.Stranded.quiet (hn : s.Stranded n) (hq : Quiet s t) : t.Stranded n := by
  refine hn.keep (.of_eq hq.heap.forest hq.heap.label) (hq.heap.status n) (hq.heap.partitioning n)
    (by rw [hq.heap.forest]) (fun o _ => by rw [hq.heap.forest]) fun x hx hnode o ho => ?_
  rw [hq.node] at hnode
  rw [hq.orWaiting] at ho
  exact ⟨(hq.connected x).mp hx, hnode, ho⟩

/-- A request that is lost stays so until its node is reported on. -/
theorem State.Stranded.act (hn : s.Stranded n) (hb : s.Booked) (hc : Consistent s) (a : Act)
    (ha : a.Allowed hindered s) (mute : a.Mute) : (a.apply s).Stranded n := by
  have hg : s.heap.Grows (a.apply s).heap := hc.seated.grows a ha.1
  obtain ⟨hlt, hand, _, hask, _⟩ := id hn
  have same {x : SockId} (hx : s.Connected x) (hnode : (s.solver x).node = some n) (o : NodeId)
      (ho : o ∈ (s.solver x).orWaiting) :
      s.Connected x ∧ (s.solver x).node = some n ∧ o ∈ (s.solver x).orWaiting := ⟨hx, hnode, ho⟩
  cases a with
  | report | reply => exact mute.elim
  | solve x m msg =>
    refine hn.update hg rfl rfl rfl (fun _ _ => rfl) (fun _ hy => hy)
      (fun y hy => Function.update_of_ne hy _ _) fun _ => ?_
    have hwaiting : (s.solver x).orWaiting = [] := by
      by_contra hw
      obtain ⟨k, hk, _⟩ := hc.seated.node_of_waiting hw
      rw [ha.1.1] at hk
      cases hk
    simpa [Act.apply, State.modifySolver] using hwaiting
  | move x m msg =>
    refine hn.update (x := x) hg rfl rfl rfl (fun _ _ => rfl) (fun _ hy => hy)
      (fun y hy => Function.update_of_ne hy _ _) fun _ => ?_
    simp [Act.apply, State.modifySolver]
  | leave x =>
    refine hn.update (x := x) hg rfl rfl rfl (fun _ _ => rfl) (fun _ hy => hy)
      (fun y hy => Function.update_of_ne hy _ _) fun _ => ?_
    simp [Act.apply, State.modifySolver, Solver.reset]
  | ask x m =>
    obtain ⟨hltm, handm, _⟩ := hc.seated.placed x m ha.1
    have hnm : n ≠ m := by
      rintro rfl
      rw [ha.2.2.2] at hask
      cases hask
    have hattrs : (s.heap.ask m).attrs n = s.heap.attrs n := by
      rw [Heap.ask_attrs hltm handm, if_neg hnm, if_neg (Nat.ne_of_lt hlt)]
    have hchildren {k : NodeId} (hk : k ≠ m) : (s.heap.ask m).children k = s.heap.children k := by
      rw [Heap.ask_forest hltm handm]
      exact Function.update_of_ne hk _ _
    refine hn.update (x := x) hg (congrArg Attrs.status hattrs) (congrArg Attrs.partitioning hattrs)
      (hchildren hnm) (fun o ho => hchildren ?_) (fun _ hy => hy)
      (fun y hy => Function.update_of_ne hy _ _) fun hnode => ?_
    · rintro rfl
      rw [Heap.isAnd_iff, Heap.isOr_of_parent (s.heap.parent_of_mem ho), hand] at handm
      cases handm
    · have hnode' : (s.solver x).node = some n := by
        simpa [Act.apply, State.modifySolver] using hnode
      exact absurd (Option.some.inj (hnode'.symm.trans ha.1)) hnm
  | process m =>
    have hf := Fixed.act (.process m) s trivial
    exact hn.keep hg (hf.status n) (hf.partitioning n) rfl (fun _ _ => rfl)
      fun y hy hnode => same hy hnode
  | conclude i shown =>
    refine hn.keep hg rfl rfl rfl (fun _ _ => rfl) fun y hy hnode o ho => ?_
    simp only [Act.apply, State.conclude] at hnode
    rw [if_pos (show y ∈ s.rlist ∧ s.kind y = .solver from hy)] at hnode
    cases hnode
  | submit name l =>
    have hattrs : (s.heap.addRoot l).2.attrs n = s.heap.attrs n :=
      Function.update_of_ne (Nat.ne_of_lt hlt) _ _
    exact hn.keep hg (congrArg Attrs.status hattrs) (congrArg Attrs.partitioning hattrs) rfl
      (fun _ _ => rfl) fun y hy hnode => same hy hnode
  | split root p =>
    have hattrs : (fixedpointPartition p root s.heap).2.attrs n = s.heap.attrs n :=
      Heap.Sprouts.split_attrs ha.1.1 ha.1.2.1 hlt
    have hchildren {k : NodeId} (hk : k < s.heap.size) (hkr : k ≠ root) :
        (fixedpointPartition p root s.heap).2.children k = s.heap.children k := by
      rw [Heap.Sprouts.split_children ha.1.1 ha.1.2.1 ha.1.2.2.2 (Nat.ne_of_lt hk), if_neg hkr]
    refine hn.keep hg (congrArg Attrs.status hattrs) (congrArg Attrs.partitioning hattrs)
      (hchildren hlt ?_) (fun o ho => hchildren (s.heap.mem_lt_size ho) ?_)
      fun y hy hnode => same hy hnode
    · rintro rfl
      exact hb.slotted.asked _ hlt hask ha.1.2.2.2
    · rintro rfl
      have hpar := s.heap.parent_of_mem ho
      rw [ha.1.2.2.1] at hpar
      cases hpar
  | create k name =>
    refine hn.keep hg rfl rfl rfl (fun _ _ => rfl) fun y hy hnode o ho => ?_
    have hne : y ≠ s.nextSock := Nat.ne_of_lt (hc.sockets y hy.1)
    have hsolver : ((Act.create k name).apply s).solver y = s.solver y := by
      simp only [Act.apply, State.create]
      split
      · exact Function.update_of_ne hne _ _
      · rfl
    have hkind : ((Act.create k name).apply s).kind y = s.kind y := Function.update_of_ne hne _ _
    exact ⟨⟨hy.1, hkind ▸ hy.2⟩, hsolver ▸ hnode, hsolver ▸ ho⟩
  | enlist x =>
    refine hn.keep hg rfl rfl rfl (fun _ _ => rfl) fun y hy hnode o ho => ?_
    rcases List.mem_append.mp hy.1 with hmem | hmem
    · exact ⟨⟨hmem, hy.2⟩, hnode, ho⟩
    · obtain rfl := List.mem_singleton.mp hmem
      have hnone : (s.solver y).node = none := ha.2.2.2 hy.2
      rw [show (s.solver y).node = some n from hnode] at hnone
      cases hnone
  | delist x | shut x =>
    exact hn.keep hg rfl rfl rfl (fun _ _ => rfl) fun y hy hnode o ho =>
      ⟨⟨(List.mem_filter.mp hy.1).1, hy.2⟩, hnode, ho⟩
  | quiet | idleAdd | idleDrop | idleSort | verdict | drop | start =>
    exact hn.keep hg rfl rfl rfl (fun _ _ => rfl) fun y hy hnode => same hy hnode

theorem Heap.Slotted.children_eq {o : NodeId} (hs : h.Slotted) (hand : h.isAnd n = true)
    (ho : o ∈ h.children n) : h.children n = [o] := by
  have hlen := hs.single n (Nat.lt_trans (h.lt_of_mem ho) (h.mem_lt_size ho)) hand
  obtain ⟨a, hone⟩ := List.length_eq_one_iff.mp
    (Nat.le_antisymm hlen (List.length_pos_iff.mpr (List.ne_nil_of_mem ho)))
  rw [hone, List.mem_singleton] at ho
  rw [hone, ho]

/-- Where a solver that waits for the partitions of an unknown node is lost, so is the request. -/
theorem State.Booked.released (hb : s.Booked) (hc : Consistent s) (heap : t.heap = s.heap)
    (others : ∀ y, y ≠ x → t.solver y = s.solver y)
    (lost : ∀ n, t.Connected x → (t.solver x).node = some n → (t.solver x).orWaiting = [])
    (ht : ∀ n, ¬ t.Stranded n) : s.Released x := by
  intro n hn hw hst
  obtain ⟨hlt, hand, _⟩ := hc.seated.placed x n hn
  obtain ⟨k, hk, o, ho, hmem, he⟩ := hc.seated.node_of_waiting hw
  obtain rfl : n = k := Option.some.inj (hn.symm.trans hk)
  refine ht n ?_
  rw [State.Stranded, heap]
  refine ⟨hlt, hand, hst, hb.wanted x n hn hw, ?_⟩
  rw [State.Served, heap, hb.slotted.children_eq hand hmem]
  rintro (⟨o', ho', hne⟩ | ⟨y, hy, hnode, o', ho', hw'⟩)
  · rw [List.mem_singleton.mp ho'] at hne
    exact hne he
  · rw [List.mem_singleton.mp ho'] at hw'
    by_cases hyx : y = x
    · subst hyx
      rw [lost n hy hnode] at hw'
      cases hw'
    · rw [others y hyx] at hw'
      exact hyx (hc.seated.apart y x o hw' ho)

/-- An operation that loses no request honours them all. -/
theorem Act.honours_of_unstranded (hb : s.Booked) (hc : Consistent s) (a : Act)
    (ha : a.Allowed hindered s) (mute : a.Mute) (ht : ∀ n, ¬ (a.apply s).Stranded n) :
    a.Honours s := by
  cases a with
  | report | reply => exact mute.elim
  | move x m msg =>
    refine hb.released (t := (Act.move x m msg).apply s) hc rfl
      (fun y hy => Function.update_of_ne hy _ _)
      (fun n _ _ => ?_) ht
    simp [Act.apply, State.modifySolver]
  | leave x =>
    refine hb.released (t := (Act.leave x).apply s) hc rfl
      (fun y hy => Function.update_of_ne hy _ _)
      (fun n _ _ => ?_) ht
    simp [Act.apply, State.modifySolver, Solver.reset]
  | shut x =>
    refine hb.released (t := (Act.shut x).apply s) hc rfl (fun y _ => rfl)
      (fun n hx _ => ?_) ht
    have hne := (List.mem_filter.mp hx.1).2
    simp at hne
  | start i =>
    intro n hlt hroot hand hst hask
    by_contra hpart
    refine ht n ⟨hlt, hand, hst, hask, ?_⟩
    rintro (⟨o, ho, hne⟩ | ⟨y, hy, hnode, _⟩)
    · exact hpart ⟨o, ho, hne⟩
    · obtain ⟨j, hj, _⟩ := hc.here y n (.inl hy) hnode
      rw [ha.2.1] at hj
      cases hj
  | _ => trivial

/-- Where no request is lost at the end of a path without reports and replies, none is before, and
all operations have honoured them. -/
theorem Path.honours {G : Act → State → Prop} (hG : ∀ a u, G a u → a.Allowed hindered u ∧ a.Mute)
    (h : Path G s t) (hb : s.Booked) (hc : Consistent s) (ht : ∀ n, ¬ t.Stranded n) :
    (∀ n, ¬ s.Stranded n) ∧ Path (fun a u => G a u ∧ a.Honours u) s t := by
  induction h using Relation.ReflTransGen.head_induction_on with
  | refl => exact ⟨ht, Relation.ReflTransGen.refl⟩
  | head hstep hpath ih =>
    rename_i u v
    obtain ⟨a, ha, hq⟩ := hstep
    obtain ⟨hallow, hmute⟩ := hG a u ha
    have hb' := hb.act hc a hallow
    have hc' := hc.act a hallow
    obtain ⟨hv, hrest⟩ := ih (hb'.quiet hq) (hc'.quiet hq)
    have happly (n : NodeId) : ¬ (a.apply u).Stranded n := fun hn => hv n (hn.quiet hq)
    refine ⟨fun n hn => happly n (hn.act hb hc a hallow hmute), ?_⟩
    exact Relation.ReflTransGen.head
      ⟨a, ⟨ha, Act.honours_of_unstranded hb hc a hallow hmute happly⟩, hq⟩ hrest

end Orders

section Runs

variable {s t : State} {ev : Event} {i : InstId} {n : NodeId}

/-- A turn of the server all of whose operations honour the requests. -/
def HonouringTurn (s t : State) : Prop :=
  ∃ ev, Step s ev t ∧ Path (fun a u => a.Caused True ev s u ∧ a.Honours u) s t

/-- The event is no message with a report. -/
def Event.Mute : Event → Prop
  | .message _ header _ => header.lookup Constant.report = none
  | _ => True

instance : (ev : Event) → Decidable ev.Mute
  | .message _ header _ => inferInstanceAs (Decidable (header.lookup Constant.report = none))
  | .timeout | .accept _ | .closed _ => isTrue trivial

theorem Act.Caused.mute {a : Act} {u : State} (h : a.Caused True ev s u) (hev : ev.Mute) :
    a.Mute := by
  cases a with
  | report =>
    obtain ⟨_, _, _, rfl, _, hrep⟩ := h.2
    rw [show _ = none from hev] at hrep
    cases hrep
  | reply =>
    obtain ⟨_, _, _, _, rfl, _, hrep, _⟩ := h.2
    rw [show _ = none from hev] at hrep
    cases hrep
  | _ => trivial

/-- If no request is lost in the end of turns without reports, they all honour the requests. -/
theorem honouring_of_mute (h : Turns (fun _ ev => ev.Mute) s t) (hb : s.Booked) (hc : Consistent s)
    (ht : ∀ n, ¬ t.Stranded n) :
    (∀ n, ¬ s.Stranded n) ∧ Relation.ReflTransGen HonouringTurn s t := by
  induction h using Relation.ReflTransGen.head_induction_on with
  | refl => exact ⟨ht, .refl⟩
  | head hturn hturns ih =>
    rename_i u v
    obtain ⟨ev, hev, hstep⟩ := hturn
    have hpath : Path (Act.Caused True ev u) u v := hstep.path hc (.inl trivial)
    have hb' : v.Booked := (hpath.invariant (I := fun w => Consistent w ∧ w.Booked)
      (fun _ _ hq hw => ⟨hw.1.quiet hq, hw.2.quiet hq⟩)
      (fun a w ha hw => ⟨hw.1.act a ha.1, hw.2.act hw.1 a ha.1⟩) ⟨hc, hb⟩).2
    obtain ⟨hv, hrest⟩ := ih hb' (hc.step hstep)
    obtain ⟨hu, hhonours⟩ := hpath.honours (fun _ _ ha => ⟨ha.1, ha.mute hev⟩) hb hc hv
    exact ⟨hu, .head ⟨ev, hstep, hhonours⟩ hrest⟩

theorem State.Booked.init (env : Env) (config : Config) : (State.init env config).Booked where
  slotted := ⟨fun n hn => absurd hn (Nat.not_lt_zero n), fun n hn => absurd hn (Nat.not_lt_zero n)⟩
  wanted x n hn := by cases hn

/-- After turns that honour the requests, every one of them is served. -/
theorem obliged_of_honouring {env : Env} {config : Config}
    (h : Relation.ReflTransGen HonouringTurn (State.init env config) s) :
    Consistent s ∧ s.Obliged := by
  induction h with
  | refl => exact ⟨.init env config, fun i n hi => by cases hi⟩
  | tail _ hturn ih =>
    obtain ⟨hc, hs⟩ := ih
    obtain ⟨ev, hstep, hpath⟩ := hturn
    refine ⟨hc.step hstep, (hpath.invariant (I := fun u => Consistent u ∧ u.Obliged)
      (fun _ _ hq hu => ⟨hu.1.quiet hq, hu.2.quiet hq⟩) (fun a u ha hu => ?_) ⟨hc, hs⟩).2⟩
    exact ⟨hu.1.act a ha.1.1, hu.2.act hu.1 a ha.1.1 ha.2⟩

/-- As long as the operations of the server honour the requests, every unknown node that partitions
have been requested for has some, or a connected solver on it waits for them.  And where no request
is lost after turns without reports, all their operations have honoured the requests. -/
theorem requests_honoured {env : Env} {config : Config} :
    (∀ s i n, Relation.ReflTransGen HonouringTurn (State.init env config) s → s.current = some i →
      s.heap.Reaches (s.root i) n → s.heap.isAnd n = true → s.heap.status n = .unknown →
      (s.heap.attrs n).partitioning = true → s.Served n) ∧
    ∀ s, Turns (fun _ ev => ev.Mute) (State.init env config) s → (∀ n, ¬ s.Stranded n) →
      Relation.ReflTransGen HonouringTurn (State.init env config) s := by
  constructor
  · intro s i n h hi hr hand hst hask
    obtain ⟨hc, hs⟩ := obliged_of_honouring h
    obtain ⟨⟨hlt, _⟩, hpar⟩ := hc.opened i (hc.current i hi)
    exact hs i n hi (hr.lt_size hlt) (hr.root_eq.trans (s.heap.root_of_none hpar)) hand hst hask
  · intro s h hs
    exact (honouring_of_mute h (.init env config) (.init env config) hs).2

instance (s : State) (n : NodeId) : Decidable (s.Served n) :=
  decidable_of_iff ((∃ o ∈ s.heap.children n, s.heap.children o ≠ []) ∨ ∃ x ∈ s.rlist,
      s.kind x = .solver ∧ (s.solver x).node = some n ∧
        ∃ o ∈ s.heap.children n, o ∈ (s.solver x).orWaiting) <| by
    rw [State.Served]
    refine or_congr_right ⟨?_, ?_⟩
    · rintro ⟨x, hx, hk, h⟩
      exact ⟨x, ⟨hx, hk⟩, h⟩
    · rintro ⟨x, ⟨hx, hk⟩, h⟩
      exact ⟨x, hx, hk, h⟩

instance (s : State) (n : NodeId) : Decidable (s.Stranded n) := inferInstanceAs (Decidable (_ ∧ _))

theorem requests_honoured_asked :
    ∃ s, twoAsked.foldlM (guarded (State.turn 3) fun _ ev => ev.Mute)
        (State.init Env.steady { partitionTimeout := some second }) = some s ∧
      s.current = some 0 ∧ (s.heap.attrs (s.root 0)).partitioning = true ∧
      s.heap.len (s.root 0) = 1 ∧ s.Served (s.root 0) := by
  obtain ⟨s, h, hi, hask, hand, hst, hlen, hstranded⟩ := exists_of_any (o := twoAsked.foldlM
    (guarded (State.turn 3) fun _ ev => ev.Mute)
    (State.init Env.steady { partitionTimeout := some second }))
    (P := fun s => s.current = some 0 ∧ (s.heap.attrs (s.root 0)).partitioning = true ∧
      s.heap.isAnd (s.root 0) = true ∧ s.heap.status (s.root 0) = .unknown ∧
      s.heap.len (s.root 0) = 1 ∧ ∀ n, n < s.heap.size → ¬ s.Stranded n) (by decide +kernel)
  have honouring := requests_honoured.2 s (.of_run (.of_script h)) fun n hn => hstranded n hn.1 hn
  exact ⟨s, h, hi, hask, hlen, requests_honoured.1 s 0 _ honouring hi (.refl _) hand hst hask⟩

/-- A partition reply that is not text. -/
def undecodableReply : Event :=
  .message 2 [(Constant.report, "partitions"), (Constant.name, "a.smt2"), (Constant.node, "[]")] none

theorem request_lost :
    ∃ s, Turns (fun _ _ => True) (State.init Env.steady { partitionTimeout := some second }) s ∧
      s.current = some 0 ∧ (s.heap.label (s.root 0)).cls = .smt ∧
      s.heap.isAnd (s.root 0) = true ∧ s.heap.status (s.root 0) = .unknown ∧
      (s.heap.attrs (s.root 0)).partitioning = true ∧ ¬ s.Served (s.root 0) := by
  obtain ⟨s, h, hlost⟩ := exists_of_any (o := (twoAsked ++ [undecodableReply]).foldlM
    (guarded (State.turn 3) fun _ _ => True)
    (State.init Env.steady { partitionTimeout := some second }))
    (P := fun s => s.current = some 0 ∧ (s.heap.label (s.root 0)).cls = .smt ∧
      s.heap.isAnd (s.root 0) = true ∧ s.heap.status (s.root 0) = .unknown ∧
      (s.heap.attrs (s.root 0)).partitioning = true ∧ ¬ s.Served (s.root 0)) (by decide +kernel)
  exact ⟨s, .of_run (.of_script h), hlost⟩

end Runs

end Smts.Server
