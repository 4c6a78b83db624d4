import Mathlib.Data.List.Nodup
import Smts.Server.Turns
import Smts.Server.Wiring

namespace Smts.Server

open Smts.Lib Smts.Lib.Prog

namespace Wiring

def without (w : Wiring) (x : SockId) : Wiring := { w with rlist := w.rlist.filter (· ≠ x) }

def add (w : Wiring) (x : SockId) : Wiring := { w with rlist := w.rlist ++ [x] }

/-- A new object of class `k` around the connection of `x`. -/
def wrap (w : Wiring) (x : SockId) (k : Kind) : Wiring :=
  { w with
    nextSock := w.nextSock + 1
    kind := Function.update w.kind w.nextSock k
    sock := Function.update w.sock w.nextSock (w.sock x) }

/-- The connection `c` of `x` is closed. -/
def close (w : Wiring) (x : SockId) (c : ConnId) : Wiring :=
  { w with isOpen := Function.update w.isOpen c false, sock := Function.update w.sock x none }

def accept (w : Wiring) : Wiring :=
  { w with
    nextSock := w.nextSock + 1
    nextConn := w.nextConn + 1
    kind := Function.update w.kind w.nextSock .raw
    sock := Function.update w.sock w.nextSock (some w.nextConn)
    isOpen := Function.update w.isOpen w.nextConn true
    rlist := w.rlist ++ [w.nextSock] }

/-- Every socket in `_rlist` is open, no two share a connection, and there is at most
one lemma server. -/
structure Sound (w : Wiring) : Prop where
  isOpen : ∀ x ∈ w.rlist, ∃ c, w.sock x = some c ∧ w.isOpen c = true
  nodup : w.rlist.Nodup
  single : ∀ x ∈ w.rlist, ∀ y ∈ w.rlist, w.sock x = w.sock y → x = y
  lemmaServer : ∀ x ∈ w.rlist, ∀ y ∈ w.rlist,
    w.kind x = .lemmaServer → w.kind y = .lemmaServer → x = y
  known : ∀ x ∈ w.rlist, x < w.nextSock
  conns : ∀ x ∈ w.rlist, ∀ c, w.sock x = some c → c < w.nextConn

namespace Sound

variable {w : Wiring} {x : SockId} {c : ConnId} {k : Kind}

theorem mem_without {y : SockId} : y ∈ (w.without x).rlist ↔ y ∈ w.rlist ∧ y ≠ x := by
  simp [without]

theorem mem_add {y : SockId} : y ∈ (w.add x).rlist ↔ y ∈ w.rlist ∨ y = x := by
  simp [add]

theorem without (h : Sound w) (x : SockId) : Sound (w.without x) where
  isOpen y hy := h.isOpen y (mem_without.mp hy).1
  nodup := h.nodup.filter _
  single y hy z hz := h.single y (mem_without.mp hy).1 z (mem_without.mp hz).1
  lemmaServer y hy z hz := h.lemmaServer y (mem_without.mp hy).1 z (mem_without.mp hz).1
  known y hy := h.known y (mem_without.mp hy).1
  conns y hy := h.conns y (mem_without.mp hy).1

/-- A member is closed and taken out. -/
theorem close (h : Sound w) (hx : x ∈ w.rlist) (hc : w.sock x = some c) :
    Sound ((w.close x c).without x) := by
  have hsock (y : SockId) (hy : y ≠ x) : (w.close x c).sock y = w.sock y :=
    Function.update_of_ne hy _ _
  have hmem (y : SockId) (hy : y ∈ ((w.close x c).without x).rlist) : y ∈ w.rlist ∧ y ≠ x :=
    mem_without.mp hy
  constructor
  · intro y hy
    obtain ⟨hy, hne⟩ := hmem y hy
    obtain ⟨d, hd, ho⟩ := h.isOpen y hy
    have hdc : d ≠ c := fun he => hne (h.single y hy x hx (by rw [hd, hc, he]))
    exact ⟨d, (hsock y hne).trans hd, (Function.update_of_ne hdc _ _).trans ho⟩
  · exact h.nodup.filter _
  · intro y hy z hz he
    obtain ⟨hy, hyx⟩ := hmem y hy
    obtain ⟨hz, hzx⟩ := hmem z hz
    exact h.single y hy z hz ((hsock y hyx).symm.trans (he.trans (hsock z hzx)))
  · intro y hy z hz
    exact h.lemmaServer y (hmem y hy).1 z (hmem z hz).1
  · exact fun y hy => h.known y (hmem y hy).1
  · intro y hy d hd
    exact h.conns y (hmem y hy).1 d ((hsock y (hmem y hy).2).symm.trans hd)

/-- An object that is not in the set changes nothing. -/
theorem wrap (h : Sound w) (x : SockId) (k : Kind) : Sound (w.wrap x k) := by
  have hold {y : SockId} (hy : y ∈ w.rlist) : y ≠ w.nextSock := Nat.ne_of_lt (h.known y hy)
  have hsock {y : SockId} (hy : y ∈ w.rlist) : (w.wrap x k).sock y = w.sock y :=
    Function.update_of_ne (hold hy) _ _
  have hkind {y : SockId} (hy : y ∈ w.rlist) : (w.wrap x k).kind y = w.kind y :=
    Function.update_of_ne (hold hy) _ _
  constructor
  · intro y hy
    obtain ⟨d, hd, ho⟩ := h.isOpen y hy
    exact ⟨d, (hsock hy).trans hd, ho⟩
  · exact h.nodup
  · intro y hy z hz he
    exact h.single y hy z hz ((hsock hy).symm.trans (he.trans (hsock hz)))
  · intro y hy z hz hky hkz
    exact h.lemmaServer y hy z hz ((hkind hy).symm.trans hky) ((hkind hz).symm.trans hkz)
  · exact fun y hy => Nat.lt_succ_of_lt (h.known y hy)
  · exact fun y hy d hd => h.conns y hy d ((hsock hy).symm.trans hd)

/-- The new object takes the place of `x`. -/
theorem replace (h : Sound w) (hx : x ∈ w.rlist)
    (hk : k = .lemmaServer → ∀ l ∈ w.rlist, w.kind l = .lemmaServer → l = x) :
    Sound (((w.wrap x k).without x).add w.nextSock) := by
  have hw := (h.wrap x k).without x
  have hsock {y : SockId} (hy : y ∈ w.rlist) : (w.wrap x k).sock y = w.sock y :=
    Function.update_of_ne (Nat.ne_of_lt (h.known y hy)) _ _
  have hkind {y : SockId} (hy : y ∈ w.rlist) : (w.wrap x k).kind y = w.kind y :=
    Function.update_of_ne (Nat.ne_of_lt (h.known y hy)) _ _
  have hnew : (w.wrap x k).sock w.nextSock = w.sock x := Function.update_self _ _ _
  have hknew : (w.wrap x k).kind w.nextSock = k := Function.update_self _ _ _
  have hfresh {y : SockId} (hy : y ∈ w.rlist ∧ y ≠ x) : (w.wrap x k).sock y ≠ w.sock x :=
    fun he => hy.2 (h.single y hy.1 x hx ((hsock hy.1).symm.trans he))
  have hother {y : SockId} (hy : y ∈ w.rlist ∧ y ≠ x) (hl : k = .lemmaServer) :
      (w.wrap x k).kind y ≠ .lemmaServer :=
    fun he => hy.2 (hk hl y hy.1 ((hkind hy.1).symm.trans he))
  have hmem {y : SockId} (hy : y ∈ (((w.wrap x k).without x).add w.nextSock).rlist) :
      (y ∈ w.rlist ∧ y ≠ x) ∨ y = w.nextSock := (mem_add.mp hy).imp_left mem_without.mp
  constructor
  · intro y hy
    rcases hmem hy with hy | rfl
    · exact hw.isOpen y (mem_without.mpr hy)
    · obtain ⟨c, hc, ho⟩ := h.isOpen x hx
      exact ⟨c, hnew.trans hc, ho⟩
  · refine hw.nodup.append (List.nodup_singleton _) ?_
    rw [List.disjoint_singleton]
    exact fun he => Nat.lt_irrefl _ (h.known _ (mem_without.mp he).1)
  · intro y hy z hz he
    rcases hmem hy with hy | rfl
    · rcases hmem hz with hz | rfl
      · exact hw.single y (mem_without.mpr hy) z (mem_without.mpr hz) he
      · exact absurd (he.trans hnew) (hfresh hy)
    · rcases hmem hz with hz | rfl
      · exact absurd (he.symm.trans hnew) (hfresh hz)
      · rfl
  · intro y hy z hz hky hkz
    rcases hmem hy with hy | rfl
    · rcases hmem hz with hz | rfl
      · exact hw.lemmaServer y (mem_without.mpr hy) z (mem_without.mpr hz) hky hkz
      · exact absurd hky (hother hy (hknew.symm.trans hkz))
    · rcases hmem hz with hz | rfl
      · exact absurd hkz (hother hz (hknew.symm.trans hky))
      · rfl
  · intro y hy
    rcases hmem hy with hy | rfl
    · exact hw.known y (mem_without.mpr hy)
    · exact Nat.lt_succ_self _
  · intro y hy c hc
    rcases hmem hy with hy | rfl
    · exact hw.conns y (mem_without.mpr hy) c hc
    · exact h.conns x hx c (hnew.symm.trans hc)

theorem accept (h : Sound w) : Sound w.accept := by
  have hsock {y : SockId} (hy : y ∈ w.rlist) : w.accept.sock y = w.sock y :=
    Function.update_of_ne (Nat.ne_of_lt (h.known y hy)) _ _
  have hkind {y : SockId} (hy : y ∈ w.rlist) : w.accept.kind y = w.kind y :=
    Function.update_of_ne (Nat.ne_of_lt (h.known y hy)) _ _
  have hnew : w.accept.sock w.nextSock = some w.nextConn := Function.update_self _ _ _
  have hknew : w.accept.kind w.nextSock = .raw := Function.update_self _ _ _
  have hfresh {y : SockId} (hy : y ∈ w.rlist) : w.accept.sock y ≠ some w.nextConn :=
    fun he => Nat.lt_irrefl _ (h.conns y hy _ ((hsock hy).symm.trans he))
  have hmem {y : SockId} (hy : y ∈ w.accept.rlist) : y ∈ w.rlist ∨ y = w.nextSock := by
    simpa [Wiring.accept] using hy
  constructor
  · intro y hy
    rcases hmem hy with hy | rfl
    · obtain ⟨c, hc, ho⟩ := h.isOpen y hy
      have hcn : c ≠ w.nextConn := Nat.ne_of_lt (h.conns y hy c hc)
      exact ⟨c, (hsock hy).trans hc, (Function.update_of_ne hcn _ _).trans ho⟩
    · exact ⟨w.nextConn, hnew, Function.update_self _ _ _⟩
  · refine h.nodup.append (List.nodup_singleton _) ?_
    rw [List.disjoint_singleton]
    exact fun he => Nat.lt_irrefl _ (h.known _ he)
  · intro y hy z hz he
    rcases hmem hy with hy | rfl
    · rcases hmem hz with hz | rfl
      · exact h.single y hy z hz ((hsock hy).symm.trans (he.trans (hsock hz)))
      · exact absurd (he.trans hnew) (hfresh hy)
    · rcases hmem hz with hz | rfl
      · exact absurd (he.symm.trans hnew) (hfresh hz)
      · rfl
  · intro y hy z hz hky hkz
    rcases hmem hy with hy | rfl
    · rcases hmem hz with hz | rfl
      · exact h.lemmaServer y hy z hz ((hkind hy).symm.trans hky) ((hkind hz).symm.trans hkz)
      · exact nomatch hknew.symm.trans hkz
    · exact nomatch hknew.symm.trans hky
  · intro y hy
    rcases hmem hy with hy | rfl
    · exact Nat.lt_succ_of_lt (h.known y hy)
    · exact Nat.lt_succ_self _
  · intro y hy c hc
    rcases hmem hy with hy | rfl
    · exact Nat.lt_succ_of_lt (h.conns y hy c ((hsock hy).symm.trans hc))
    · obtain rfl := Option.some.inj (hnew.symm.trans hc)
      exact Nat.lt_succ_self _

end Sound

end Wiring

section Turns

variable {α β : Type} {s : State} {x : SockId} {c : ConnId}

/-- However the program ends, the set is sound. -/
abbrev Sane (m : M α) (s : State) : Prop :=
  wp m (fun _ t => t.wiring.Sound) (fun _ t => t.wiring.Sound) s

theorem Sane.of_untouched {m : M α} (h : Untouched m) (hs : s.wiring.Sound) : Sane m s :=
  h.unwired.wp hs

theorem Sane.bind {m : M α} {f : α → M β} (h : Sane m s)
    (hf : ∀ a t, t.wiring.Sound → Sane (f a) t) : Sane (m >>= f) s := by
  rw [Sane, wp_bind]
  exact wp_mono h hf fun _ _ ht => ht

theorem wp_closeSocket {Q : Unit → State → Prop} {E : Exn → State → Prop}
    (hc : s.sock x = some c)
    (h : Q () { s with
      isOpen := Function.update s.isOpen c false
      sock := Function.update s.sock x none }) : wp (closeSocket x) Q E s := by
  rw [wp, closeSocket, hc]
  exact h

theorem wp_inOrder_wired {xs : List SockId} {Q : List SockId → State → Prop}
    {E : Exn → State → Prop} (h : ∀ l t, l.Perm xs → t.wiring = s.wiring → Q l t) :
    wp (inOrder xs) Q E s :=
  h _ _ (s.world.env.order_perm _ _) rfl

theorem sane_closeServer (hs : s.wiring.Sound) : Sane closeServer s := by
  rw [Sane, closeServer, wp_bind, wp_get, wp_bind]
  refine wp_inOrder_wired fun l t hl ht => ?_
  have hstart : t.wiring.Sound ∧ l.Nodup ∧ ∀ x ∈ l, x ∈ t.rlist := by
    have hrlist : t.rlist = s.rlist := congrArg Wiring.rlist ht
    refine ⟨ht ▸ hs, hl.nodup_iff.mpr hs.nodup, fun x hx => ?_⟩
    rw [hrlist]
    exact hl.mem_iff.mp hx
  refine wp_mono (wp_forEach (I := fun as (t : State) =>
    t.wiring.Sound ∧ as.Nodup ∧ ∀ x ∈ as, x ∈ t.rlist) ?_ hstart)
    (fun _ _ h => h.1) fun _ _ h => h
  intro x as t ⟨ht, hnodup, hmem⟩
  have hx := hmem x List.mem_cons_self
  obtain ⟨c, hc, -⟩ := ht.isOpen x hx
  rw [wp_bind, wp_modify]
  refine wp_closeSocket hc ⟨ht.close hx hc, hnodup.of_cons, fun y hy => ?_⟩
  have hne : y ≠ x := fun he => (List.nodup_cons.mp hnodup).1 (he ▸ hy)
  exact (Wiring.Sound.mem_without (w := t.wiring)).mpr
    ⟨hmem y (List.mem_cons_of_mem x hy), hne⟩

theorem sane_allDone {i : Option InstId} (hs : s.wiring.Sound) : Sane (allDone i) s := by
  rw [Sane, allDone, wp_bind, wp_get]
  have close : Sane (do closeServer; raise .systemExit : M Unit) s :=
    (sane_closeServer hs).bind fun _ _ ht => ht
  simp only [wp_when]
  exact ⟨fun _ => ⟨fun _ => ⟨fun _ => close, fun _ => hs⟩, fun _ => hs⟩, fun _ => hs⟩

/-- What `attend` does once the current instance was looked at. -/
theorem sane_proceed (solving : Option InstId) (returned : Bool) (hs : s.wiring.Sound) :
    Sane (proceed solving returned) s := by
  rw [proceed]
  split
  · exact hs
  · rw [Sane, wp_bind, wp_gets]
    cases s.current with
    | none =>
      refine Sane.bind (.of_untouched (by simp) hs) fun b t ht => ?_
      split
      · exact ht
      · exact (sane_allDone ht).bind fun _ _ hu => hu
    | some i =>
      exact Sane.of_untouched (.bind (by simp) fun _ => .bind .get fun _ => by simp) hs

theorem sane_attend (hs : s.wiring.Sound) : Sane attend s := by
  rw [Sane, attend, wp_bind, wp_gets]
  have settled : Untouched (settle s.current) := by
    cases s.current with
    | none => exact .pure _
    | some i => exact .bind (by simp) fun _ => .ite (by simp) (.pure _)
  exact Sane.bind (.of_untouched settled hs) fun returned _ ht => sane_proceed s.current returned ht

theorem sane_entrust {fuel : Nat} {p : Option PNode} (hs : s.wiring.Sound) :
    Sane (entrust fuel p) s := by
  refine (sane_attend hs).bind fun i t ht => ?_
  cases i with
  | none => exact ht
  | some i => exact .of_untouched (.bind (by simp) fun r => by simp) ht

theorem untouched_introduce (x : SockId) : Untouched (do
    match ← lemmaServer with
    | some l => Solver.setLemmaServer x (some l)
    | none => pure ()) := by
  refine .bind (by simp) fun l => ?_
  split
  · simp
  · simp

/-- The new object is around before it takes the place of the raw socket. -/
theorem sane_join {name : String} (hs : s.wiring.Sound) (hx : x ∈ s.rlist) :
    Sane (join x name) s := by
  have hwrap : (s.wiring.wrap x .solver).Sound := hs.wrap x .solver
  rw [Sane, join, wp_bind, wp_get, wp_bind, wp_modify]
  refine Leaves.wp_bind (f := State.wiring) (Untouched.unwired (.when (by simp)))
    (fun _ t ht => ?_) fun e t ht => ?_
  · rw [if_pos hx, wp_bind, wp_modify]
    refine Sane.of_untouched (untouched_introduce s.nextSock) ?_
    have hnew : ((t.wiring.without x).add s.nextSock).Sound := by
      rw [ht]
      exact hs.replace hx fun h => nomatch h
    exact hnew
  · exact ht ▸ hwrap

theorem wp_lemmaServer_wired {Q : Option SockId → State → Prop} {E : Exn → State → Prop}
    (some : ∀ l t, t.wiring = s.wiring → l ∈ s.rlist → s.kind l = .lemmaServer → Q (some l) t)
    (none : ∀ t, t.wiring = s.wiring → (∀ l ∈ s.rlist, s.kind l ≠ .lemmaServer) → Q none t) :
    wp lemmaServer Q E s := by
  rw [lemmaServer, wp_bind, wp_get, wp_bind]
  refine wp_inOrder_wired fun xs t hxs ht => ?_
  cases xs with
  | nil =>
    refine none t ht fun l hl hk => ?_
    have hmem : l ∈ s.rlist.filter fun x => s.kind x = .lemmaServer := by
      simpa using ⟨hl, hk⟩
    exact absurd (hxs.mem_iff.mpr hmem) List.not_mem_nil
  | cons l xs =>
    have hl := hxs.mem_iff.mp (List.mem_cons_self (a := l))
    rw [List.mem_filter] at hl
    exact some l t ht hl.1 (of_decide_eq_true hl.2)

theorem wp_write_closed {header : Header} {payload : String} {about : Option NodeId}
    {Q : Unit → State → Prop} {E : Exn → State → Prop} (hx : s.sock x = none)
    (h : E .attributeError s) : wp (write x header payload about) Q E s := by
  rw [wp, write, hx]
  exact h

/-- The lemma server in place goes, and the one that joins takes over. -/
theorem sane_replaceLemmaServer (address : String) (hs : s.wiring.Sound) (hx : x ∈ s.rlist)
    (sole : ∀ l ∈ s.rlist, s.kind l = .lemmaServer → l = x) : Sane (do
      match ← lemmaServer with
      | some l => closeSocket l
      | none => pure ()
      if x ∈ s.rlist then modify fun s => { s with rlist := s.rlist.filter (· ≠ x) }
      else raise .keyError
      let s ← get
      let y := s.nextSock
      modify fun s => { s with
        nextSock := y + 1
        kind := Function.update s.kind y .lemmaServer
        sock := Function.update s.sock y (s.sock x)
        listening := Function.update s.listening y address }
      write y ((if s.config.enableLog then [(Constant.logMode, "1")] else []) ++
        [(Constant.maxMemory, toString s.config.maxMemory)]) "" none
      modify fun s => { s with rlist := s.rlist ++ [y] }
      forEach (fun z => Solver.setLemmaServer z (some y)) (← solvers .all) : M Unit) s := by
  -- the listed object, its predecessor gone
  have publish (t : State) (y : SockId) (ht : (t.wiring.add y).Sound) : Sane (do
      modify fun s => { s with rlist := s.rlist ++ [y] }
      forEach (fun z => Solver.setLemmaServer z (some y)) (← solvers .all) : M Unit) t := by
    rw [Sane, wp_bind, wp_modify]
    exact Sane.of_untouched (.bind (by simp) fun l => .forEach (fun z => by simp) l) ht
  have replace (address : String) (t : State) (ht : t.wiring = s.wiring)
      (hnone : ∀ l ∈ s.rlist, s.kind l = .lemmaServer → l = x) : Sane (do
      if x ∈ s.rlist then modify fun s => { s with rlist := s.rlist.filter (· ≠ x) }
      else raise .keyError
      let s ← get
      let y := s.nextSock
      modify fun s => { s with
        nextSock := y + 1
        kind := Function.update s.kind y .lemmaServer
        sock := Function.update s.sock y (s.sock x)
        listening := Function.update s.listening y address }
      write y ((if s.config.enableLog then [(Constant.logMode, "1")] else []) ++
        [(Constant.maxMemory, toString s.config.maxMemory)]) "" none
      modify fun s => { s with rlist := s.rlist ++ [y] }
      forEach (fun z => Solver.setLemmaServer z (some y)) (← solvers .all) : M Unit) t := by
    have hadd : (((t.wiring.without x).wrap x .lemmaServer).add t.nextSock).Sound := by
      have hnext : t.nextSock = s.wiring.nextSock := congrArg Wiring.nextSock ht
      rw [hnext, ht]
      exact hs.replace hx fun _ => hnone
    rw [if_pos hx, Sane, wp_bind, wp_modify, wp_bind, wp_get, wp_bind, wp_modify]
    refine Leaves.wp_bind (f := State.wiring) (Untouched.unwired (by simp)) (fun _ u hu => ?_)
      fun e u hu => ?_
    · exact publish u _ (hu ▸ hadd)
    · have hw : ((t.wiring.without x).wrap x .lemmaServer).Sound := by
        rw [ht]
        exact (hs.without x).wrap x _
      exact hu ▸ hw
  -- a lemma server that registers again closes its own connection first
  have again (address : String) (t : State) (ht : t.wiring = s.wiring) : Sane (do
      closeSocket x
      if x ∈ s.rlist then modify fun s => { s with rlist := s.rlist.filter (· ≠ x) }
      else raise .keyError
      let s ← get
      let y := s.nextSock
      modify fun s => { s with
        nextSock := y + 1
        kind := Function.update s.kind y .lemmaServer
        sock := Function.update s.sock y (s.sock x)
        listening := Function.update s.listening y address }
      write y ((if s.config.enableLog then [(Constant.logMode, "1")] else []) ++
        [(Constant.maxMemory, toString s.config.maxMemory)]) "" none
      modify fun s => { s with rlist := s.rlist ++ [y] }
      forEach (fun z => Solver.setLemmaServer z (some y)) (← solvers .all) : M Unit) t := by
    obtain ⟨c, hc, -⟩ := hs.isOpen x hx
    have hct : t.sock x = some c := (congrFun (congrArg Wiring.sock ht) x).trans hc
    have hsound : (((t.wiring.close x c).without x).wrap x .lemmaServer).Sound := by
      rw [ht]
      exact (hs.close hx hc).wrap x _
    rw [Sane, wp_bind]
    refine wp_closeSocket hct ?_
    rw [if_pos hx, wp_bind, wp_modify, wp_bind, wp_get, wp_bind, wp_modify, wp_bind]
    refine wp_write_closed ?_ hsound
    exact (Function.update_self _ _ _).trans (Function.update_self _ _ _)
  rw [Sane, wp_bind]
  refine wp_lemmaServer_wired (fun l t ht hl hk => ?_) fun t ht hnone => ?_
  · obtain rfl := sole l hl hk
    exact again address t ht
  · exact replace address t ht fun l hl hk => absurd hk (hnone l hl)

theorem sane_listening {listening : String} {k : String → M Unit} (hs : s.wiring.Sound)
    (hk : ∀ address, listening ≠ "" → Sane (k address) s) : Sane (
      match listening.toList with
      | [] => raise .indexError >>= k
      | ':' :: _ =>
        match s.sock x with
        | some c => pure (s.remote c ++ listening) >>= k
        | none => raise .typeError >>= k
      | _ => pure listening >>= k) s := by
  split
  · exact hs
  · next tail htail =>
    have hne : listening ≠ "" := fun he => by simp [he] at htail
    cases s.sock x with
    | some c => exact hk _ hne
    | none => exact hs
  · next hnil _ =>
    have hne : listening ≠ "" := fun he => hnil (by simp [he])
    exact hk _ hne

/-- A lemma server joins where no other one is connected. -/
theorem sane_joinLemmaServer {listening : String} (hs : s.wiring.Sound) (hx : x ∈ s.rlist)
    (sole : listening ≠ "" → ∀ l ∈ s.rlist, s.kind l = .lemmaServer → l = x) :
    Sane (joinLemmaServer x listening) s := by
  rw [Sane, joinLemmaServer, wp_bind, wp_get]
  exact sane_listening hs fun address hne => sane_replaceLemmaServer address hs hx (sole hne)

theorem sane_handleCommand {command : String} {header : Header} {payload : Payload}
    (hs : s.wiring.Sound) : Sane (handleCommand command header payload) s := by
  unfold handleCommand
  split
  · exact (sane_closeServer hs).bind fun _ _ ht => ht
  · split
    · split
      · exact hs
      · exact .of_untouched (.bind (by simp) fun _ => .pure _) hs
    · exact hs

/-- The message makes a lemma server of the connection. -/
def Registers (s : State) (x : SockId) (header : Header) (payload : Payload) : Prop :=
  s.kind x = .raw ∧ ¬ (s.config.enableLog = true ∧ payload = none) ∧
    header.lookup Constant.command = none ∧ header.lookup Constant.solver = none ∧
    (header.lookup Constant.lemmas).any (· ≠ "") = true

/-- Where a lemma server registers there is no other one. -/
def Sole (s : State) : Event → Prop
  | .message x header payload =>
    Registers s x header payload → ∀ l ∈ s.rlist, s.kind l ≠ .lemmaServer
  | _ => True

/-- What `handle_message` does for a client once its report was looked at. -/
theorem sane_serve {header : Header} {payload : Payload} (hs : s.wiring.Sound)
    (hx : x ∈ s.rlist) (hkind : s.kind x ≠ .solver)
    (hlog : ¬ (s.config.enableLog = true ∧ payload = none))
    (sole : Sole s (.message x header payload)) : Sane (match header.lookup Constant.command with
      | some command => handleCommand command header payload
      | none =>
        match header.lookup Constant.solver with
        | some name => do
          join x name
          return some none
        | none => do
          match header.lookup Constant.lemmas with
          | some listening => joinLemmaServer x listening
          | none => when (header.has Constant.eval = true) (write x [] "" none)
          return none : M (Option (Option PNode))) s := by
  cases hcommand : header.lookup Constant.command with
  | some command => exact sane_handleCommand hs
  | none =>
    cases hsolver : header.lookup Constant.solver with
    | some name => exact (sane_join hs hx).bind fun _ _ ht => ht
    | none =>
      cases hlemmas : header.lookup Constant.lemmas with
      | some listening =>
        refine Sane.bind (sane_joinLemmaServer hs hx fun hne l hl hk => ?_) fun _ _ ht => ht
        cases hself : s.kind x with
        | raw =>
          have hany : (header.lookup Constant.lemmas).any (· ≠ "") = true := by simp [hlemmas, hne]
          exact absurd hk (sole ⟨hself, hlog, hcommand, hsolver, hany⟩ l hl)
        | solver => exact absurd hself hkind
        | lemmaServer => exact hs.lemmaServer l hl x hx hk hself
      | none => exact .of_untouched (.bind (.when (by simp)) fun _ => .pure _) hs

/-- The report of a lemma server may end the message, or the server. -/
theorem sane_reported {header : Header} {k : M (Option (Option PNode))} (hs : s.wiring.Sound)
    (hk : Sane k s) : Sane (
      if s.kind x = .lemmaServer ∧ header = [] then return none
      else
        match header.lookup Constant.report with
        | some report => do
          when (s.kind x = .lemmaServer) (lemmaReport report)
          k
        | none => k) s := by
  split
  · exact hs
  · cases header.lookup Constant.report with
    | none => exact hk
    | some report =>
      rw [Sane, wp_bind, wp_when]
      exact ⟨fun _ => wp_lemmaReport hk fun _ _ => hs, fun _ => hk⟩

theorem sane_handleOther {header : Header} {payload : Payload} (hs : s.wiring.Sound)
    (hx : x ∈ s.rlist) (hkind : s.kind x ≠ .solver)
    (hlog : ¬ (s.config.enableLog = true ∧ payload = none))
    (sole : Sole s (.message x header payload)) : Sane (handleOther x header payload) s := by
  rw [Sane, handleOther, wp_bind, wp_get]
  exact sane_reported hs (sane_serve hs hx hkind hlog sole)

theorem sane_handleMessage {header : Header} {payload : Payload} (hs : s.wiring.Sound)
    (hx : x ∈ s.rlist) (sole : Sole s (.message x header payload)) :
    Sane (handleMessage x header payload) s := by
  rw [Sane, handleMessage, wp_bind, wp_get]
  split
  · refine Sane.of_untouched (.bind (by simp) fun r => .bind (.when (by simp)) fun _ => by simp) hs
  · next hkind =>
    rw [wp_bind, wp_when]
    exact ⟨fun _ => hs, fun hlog => sane_handleOther hs hx hkind hlog sole⟩

theorem sane_receive {ev : Event} (hs : s.wiring.Sound) (ready : ev.ready s) (sole : Sole s ev) :
    Sane (receive ev) s := by
  cases ev with
  | timeout => exact hs
  | accept remote => exact hs.accept
  | message x header payload => exact sane_handleMessage hs ready.1 sole
  | closed x =>
    refine Leaves.wp_bind (f := State.wiring) (Untouched.unwired (by simp)) (fun _ t ht => ?_)
      fun _ t ht => ht ▸ hs
    obtain ⟨c, hc, -⟩ := hs.isOpen x ready.1
    have hct : t.sock x = some c := (congrFun (congrArg Wiring.sock ht) x).trans hc
    have hgone : ((t.wiring.close x c).without x).Sound := ht ▸ hs.close ready.1 hc
    rw [wp_bind]
    exact wp_closeSocket hct hgone

theorem sane_handle {fuel : Nat} {ev : Event} (hs : s.wiring.Sound) (ready : ev.ready s)
    (sole : Sole s ev) : Sane (handle fuel ev) s := by
  refine (sane_receive hs ready sole).bind fun r t ht => ?_
  cases r with
  | some p => exact sane_entrust ht
  | none => exact ht

theorem step_sound {ev : Event} {t : State} (hs : s.wiring.Sound) (sole : Sole s ev)
    (h : Step s ev t) : t.wiring.Sound := by
  cases h with
  | @mk fuel _ _ _ ready run _ =>
    have hfinal : (handle fuel ev s).2.wiring.Sound :=
      wp_final (P := fun (t : State) => t.wiring.Sound) (sane_handle hs ready sole)
    rwa [run] at hfinal

end Turns

theorem init_sound (env : Env) (config : Config) : (State.init env config).wiring.Sound where
  isOpen x hx := by
    obtain rfl := List.mem_singleton.mp hx
    exact ⟨0, rfl, rfl⟩
  nodup := List.nodup_singleton 0
  single x hx y hy _ := (List.mem_singleton.mp hx).trans (List.mem_singleton.mp hy).symm
  lemmaServer x hx y hy _ _ := (List.mem_singleton.mp hx).trans (List.mem_singleton.mp hy).symm
  known x hx := by
    obtain rfl := List.mem_singleton.mp hx
    exact Nat.zero_lt_one
  conns x hx c hc := by
    obtain rfl := List.mem_singleton.mp hx
    obtain rfl := Option.some.inj hc
    exact Nat.zero_lt_one

/-- What `select` relies on: all sockets are open, no connection is in the set twice, and
at most one member is a lemma server. -/
structure State.Selectable (s : State) : Prop where
  isOpen : ∀ x ∈ s.rlist, (s.sock x).any s.isOpen = true
  nodup : (s.rlist.map s.sock).Nodup
  lemmaServer : (s.rlist.filter fun x => s.kind x = .lemmaServer).length ≤ 1

theorem Wiring.Sound.selectable {s : State} (h : s.wiring.Sound) : s.Selectable where
  isOpen x hx := by
    obtain ⟨c, hc, ho⟩ := h.isOpen x hx
    have hsock : s.sock x = some c := hc
    rw [hsock]
    exact ho
  nodup := h.nodup.map_on h.single
  lemmaServer := by
    have hmem (x : SockId) (hx : x ∈ s.rlist.filter fun x => s.kind x = .lemmaServer) :
        x ∈ s.rlist ∧ s.kind x = .lemmaServer := by simpa using hx
    have hnodup := h.nodup.filter fun x => s.kind x = .lemmaServer
    rcases hf : s.rlist.filter fun x => s.kind x = .lemmaServer with _ | ⟨x, _ | ⟨y, ys⟩⟩
    · exact Nat.zero_le 1
    · exact Nat.le_refl 1
    · rw [hf] at hmem
      have hx := hmem x List.mem_cons_self
      have hy := hmem y (List.mem_cons_of_mem x List.mem_cons_self)
      have hxy : x = y := h.lemmaServer x hx.1 y hy.1 hx.2 hy.2
      have hne : x ≠ y := fun he => by
        have hdup : (x :: y :: ys).Nodup := hf ▸ hnodup
        exact (List.nodup_cons.mp hdup).1 (he ▸ List.mem_cons_self)
      exact absurd hxy hne

/-- As long as no second lemma server registers, the select set only holds live sockets. -/
theorem rlist_selectable {env : Env} {config : Config} {s : State}
    (h : Turns Sole (State.init env config) s) : s.Selectable :=
  (h.invariant (fun _ _ _ => step_sound) (init_sound env config)).selectable

instance (s : State) (x : SockId) (header : Header) (payload : Payload) :
    Decidable (Registers s x header payload) :=
  inferInstanceAs (Decidable (_ ∧ ¬ (_ ∧ _) ∧ _ ∧ _ ∧ _))

instance (s : State) : (ev : Event) → Decidable (Sole s ev)
  | .timeout | .accept _ | .closed _ => isTrue trivial
  | .message x header payload =>
    inferInstanceAs (Decidable (Registers s x header payload →
      ∀ l ∈ s.rlist, s.kind l ≠ .lemmaServer))

/-- A solver and a lemma server register, and the lemma server is replaced after it has
gone. -/
def inTurn : List Event :=
  [.accept "a", .accept "b", .message 1 [(Constant.solver, "OpenSMT2")] (some ""),
    .message 2 [(Constant.lemmas, ":5000")] (some ""), .closed 4, .accept "c",
    .message 5 [(Constant.lemmas, ":5000")] (some "")]

theorem rlist_selectable_inTurn :
    ∃ s, inTurn.foldlM (guarded (State.turn 0) Sole) (State.init Env.steady {}) = some s ∧
      s.rlist = [0, 3, 6] ∧ s.Selectable := by
  obtain ⟨s, h, listed⟩ := exists_of_any
    (o := inTurn.foldlM (guarded (State.turn 0) Sole) (State.init Env.steady {}))
    (P := fun s => s.rlist = [0, 3, 6]) (by decide +kernel)
  exact ⟨s, h, listed, rlist_selectable (.of_run (.of_script h))⟩

/-- A second lemma server registers while the first is connected. -/
def bothAtOnce : List Event :=
  [.accept "a", .accept "b", .message 1 [(Constant.lemmas, ":5000")] (some ""),
    .message 2 [(Constant.lemmas, ":5000")] (some "")]

theorem rlist_dead :
    ∃ s, Turns (fun _ _ => True) (State.init Env.steady {}) s ∧ s.rlist = [0, 3, 4] ∧
      s.sock 3 = none ∧ s.kind 3 = .lemmaServer ∧ s.kind 4 = .lemmaServer ∧ ¬ s.Selectable := by
  obtain ⟨s, h, listed, dead, first, second⟩ := exists_of_any
    (o := bothAtOnce.foldlM (guarded (State.turn 0) fun _ _ => True) (State.init Env.steady {}))
    (P := fun s => s.rlist = [0, 3, 4] ∧ s.sock 3 = none ∧ s.kind 3 = .lemmaServer ∧
      s.kind 4 = .lemmaServer) (by decide +kernel)
  refine ⟨s, .of_run (.of_script h), listed, dead, first, second, fun hs => ?_⟩
  have hopen := hs.isOpen 3 (by rw [listed]; decide)
  rw [dead] at hopen
  cases hopen

end Smts.Server
