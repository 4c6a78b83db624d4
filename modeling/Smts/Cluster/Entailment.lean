import Smts.Cluster.Exchange
import Smts.Lib.Run

namespace Smts

open Smts.Lib
open Smts.Client (Branch Sharer formula formula_anti Entailed)
open Smts.LemmaServer (Task Reply Stored FromPush Apart Left wp_lemmaWorker)

namespace Exchange

variable {Model : Type}

section Sound

variable {G : List Task → Task → Prop} {N : Branch → Prop} {frame : Bytes → Branch → Set Model}
  {sem : Bytes → Set Model} {x y : Exchange} {i : Nat} {s : Sharer}

theorem filter_pulls {ts : List Task} (h : ∀ t ∈ ts, t.push = true) :
    (ts.filter fun t => !t.push) = [] :=
  List.filter_eq_nil_iff.mpr fun t ht => by simp [h t ht]

/-- At most one request is out, for the branch that the pull worker waits with. -/
structure Waits (frame : Bytes → Branch → Set Model) (sem : Bytes → Set Model) (s : Sharer)
    (out : List Task) (inn : List Reply) : Prop where
  asked : ∀ t ∈ out, t.push = false → s.asking = true ∧ s.header = some t.path
  told : ∀ r ∈ inn, s.asking = true ∧
    ∃ p, s.header = some p ∧ ∀ l ∈ r.body, formula (frame s.name) p ⊆ sem l.clause
  once : (out.filter fun t => !t.push).length + inn.length ≤ 1

namespace Waits

variable {out : List Task} {inn : List Reply} {t : Sharer}

theorem keep (h : Waits frame sem s out inn) (name : t.name = s.name) (asking : t.asking = s.asking)
    (header : ∀ p, s.header = some p → t.header = some p) : Waits frame sem t out inn where
  asked u hu hp := by
    obtain ⟨ha, hh⟩ := h.asked u hu hp
    exact ⟨asking.trans ha, header _ hh⟩
  told r hr := by
    obtain ⟨ha, p, hp, hl⟩ := h.told r hr
    exact ⟨asking.trans ha, p, header p hp, name ▸ hl⟩
  once := h.once

/-- Nothing is out while nobody asks. -/
theorem idle (h : Waits frame sem s out inn) (free : s.asking = false) :
    (∀ t ∈ out, t.push = true) ∧ inn = [] := by
  refine ⟨fun t ht => ?_, List.eq_nil_iff_forall_not_mem.mpr fun r hr => ?_⟩
  · cases hp : t.push with
    | true => rfl
    | false => cases free.symm.trans (h.asked t ht hp).1
  · cases free.symm.trans (h.told r hr).1

theorem of_idle (hout : ∀ t ∈ out, t.push = true) (hinn : inn = []) :
    Waits frame sem s out inn where
  asked u hu hp := nomatch (hout u hu).symm.trans hp
  told r hr := by
    subst hinn
    cases hr
  once := by
    rw [filter_pulls hout, hinn]
    exact Nat.zero_le 1

theorem push (h : Waits frame sem s out inn) {ts : List Task} (hts : ∀ t ∈ ts, t.push = true) :
    Waits frame sem s (out ++ ts) inn where
  asked u hu hp := by
    rcases List.mem_append.mp hu with hu | hu
    · exact h.asked u hu hp
    · cases (hts u hu).symm.trans hp
  told := h.told
  once := by
    rw [List.filter_append, filter_pulls hts, List.append_nil]
    exact h.once

/-- The reply is read, so that nothing is out any more. -/
theorem read {r : Reply} (h : Waits frame sem s out (r :: inn)) :
    (∀ t ∈ out, t.push = true) ∧ inn = [] := by
  have once := h.once
  rw [List.length_cons] at once
  refine ⟨fun t ht => ?_, List.length_eq_zero_iff.mp (by omega)⟩
  have none : (out.filter fun t => !t.push) = [] := List.length_eq_zero_iff.mp (by omega)
  simpa using List.filter_eq_nil_iff.mp none t ht

/-- The request goes out. -/
theorem ask {t : Task} (hout : ∀ t ∈ out, t.push = true) (asking : s.asking = true)
    (header : s.header = some t.path) : Waits frame sem s (out ++ [t]) [] where
  asked u hu hp := by
    rcases List.mem_append.mp hu with hu | hu
    · cases (hout u hu).symm.trans hp
    · obtain rfl := List.mem_singleton.mp hu
      exact ⟨asking, header⟩
  told _ h := nomatch h
  once := by
    rw [List.filter_append, filter_pulls hout, List.nil_append]
    exact List.length_filter_le _ _

/-- The lemma server has run a task, and may have answered it. -/
theorem work {u : Task} {rs : List Reply} (h : Waits frame sem s (u :: out) inn)
    (count : rs.length ≤ if u.push then 0 else 1)
    (right : s.header = some u.path → ∀ r ∈ rs, ∀ l ∈ r.body,
      formula (frame s.name) u.path ⊆ sem l.clause) :
    Waits frame sem s out (inn ++ rs) where
  asked v hv := h.asked v (List.mem_cons_of_mem _ hv)
  told r hr := by
    rcases List.mem_append.mp hr with hr | hr
    · exact h.told r hr
    · cases hp : u.push with
      | true =>
        rw [hp, if_pos rfl] at count
        rw [List.length_eq_zero_iff.mp (Nat.le_zero.mp count)] at hr
        cases hr
      | false =>
        obtain ⟨ha, hh⟩ := h.asked u List.mem_cons_self hp
        exact ⟨ha, u.path, hh, right hh r hr⟩
  once := by
    have once := h.once
    rw [List.length_append]
    cases hp : u.push with
    | true =>
      rw [List.filter_cons_of_neg (by simp [hp])] at once
      rw [hp, if_pos rfl] at count
      omega
    | false =>
      rw [List.filter_cons_of_pos (by simp [hp]), List.length_cons] at once
      simp only [hp, Bool.false_eq_true, if_false] at count
      omega

end Waits

/-- What a pull is answered with follows from the frames of the node it asks for. -/
theorem replied {ts : List Task} {t : Task} {s s' : LemmaServer.State}
    (history : ∀ u ∈ t :: ts, u.push = true → ∀ l ∈ u.body, Entailed (frame u.name) sem u.path l)
    (apart : Apart ts t) (left : Left ts t s s') :
    ∃ rs, s'.sent = s.sent ++ rs ∧ rs.length ≤ (if t.push then 0 else 1) ∧
      ∀ r ∈ rs, r.client = t.client ∧
        ∀ l ∈ r.body, formula (frame t.name) t.path ⊆ sem l.clause := by
  rcases left.2 with hsent | ⟨hpush, hread, n, ls, hsent, hfound⟩
  · exact ⟨[], by rw [hsent, List.append_nil], Nat.zero_le _, fun _ h => nomatch h⟩
  · refine ⟨_, hsent, by simp [hpush], fun r hr => ?_⟩
    obtain rfl := List.mem_singleton.mp hr
    refine ⟨rfl, fun l hl => ?_⟩
    obtain ⟨a, ha, hlevel, x, hx, rfl, htake⟩ := hfound l hl
    obtain ⟨u, hu, hup, hname, hpath, hbody⟩ := LemmaServer.mem_pushed hx
    obtain ⟨k, hk, -, hsub⟩ := history u hu hup x.2 hbody
    obtain rfl : k = a.length := by
      rw [hlevel] at hk
      exact_mod_cast hk.symm
    have same := apart hpush hread x hx a.length hlevel
      (htake.trans (List.prefix_iff_eq_take.mp ((List.mem_inits a _).mp ha)))
    rw [hname, hpath, same] at hsub
    exact (formula_anti (List.take_prefix _ _)).trans hsub

/-- All lemmas, wherever they are, follow from the frames of the nodes that they belong to. -/
structure Sound (frame : Bytes → Branch → Set Model) (sem : Bytes → Set Model)
    (x : Exchange) : Prop where
  clients : ∀ i, (x.client i).Sound (frame (x.client i).name) sem
  history : ∀ t ∈ x.history, t.push = true → ∀ l ∈ t.body, Entailed (frame t.name) sem t.path l
  stored : Stored (FromPush x.history) x.server
  sent : ∀ i, ∀ t ∈ x.outbox i, t.client = i ∧ t.name = (x.client i).name ∧
    (t.push = true → ∀ l ∈ t.body, Entailed (frame t.name) sem t.path l)
  waiting : ∀ i, x.linked i = true → Waits frame sem (x.client i) (x.outbox i) (x.inbox i)

theorem sound_init {sendAgain : Bool} {clients : Nat → Sharer}
    (h : ∀ i, (clients i).Sound (frame (clients i).name) sem) :
    (init sendAgain clients).Sound frame sem where
  clients := h
  history _ h := nomatch h
  stored _ _ _ _ h := nomatch h
  sent _ _ h := nomatch h
  waiting _ _ := .of_idle (fun _ h => nomatch h) rfl

namespace Sound

/-- A step of one client that sends nothing. -/
theorem put (hx : x.Sound frame sem) (name : s.name = (x.client i).name)
    (sound : s.Sound (frame (x.client i).name) sem)
    (waits : x.linked i = true → Waits frame sem s (x.outbox i) (x.inbox i)) :
    (x.put i s).Sound frame sem where
  clients := (Function.forall_update_iff _ fun _ (s : Sharer) => s.Sound (frame s.name) sem).mpr
    ⟨name ▸ sound, fun j _ => hx.clients j⟩
  history := hx.history
  stored := hx.stored
  sent := (Function.forall_update_iff _ fun j (s : Sharer) => ∀ t ∈ x.outbox j, t.client = j ∧
      t.name = s.name ∧ (t.push = true → ∀ l ∈ t.body, Entailed (frame t.name) sem t.path l)).mpr
    ⟨name ▸ hx.sent i, fun j _ => hx.sent j⟩
  waiting := (Function.forall_update_iff _ fun j (s : Sharer) =>
      x.linked j = true → Waits frame sem s (x.outbox j) (x.inbox j)).mpr
    ⟨waits, fun j _ => hx.waiting j⟩

theorem post {ts : List Task} (hx : x.Sound frame sem)
    (right : ∀ t ∈ ts, t.client = i ∧ t.name = (x.client i).name ∧
      (t.push = true → ∀ l ∈ t.body, Entailed (frame t.name) sem t.path l))
    (waits : x.linked i = true →
      Waits frame sem (x.client i) (x.outbox i ++ ts) (x.inbox i)) :
    (x.post i ts).Sound frame sem := by
  unfold Exchange.post
  split
  · next linked =>
    refine ⟨hx.clients, hx.history, hx.stored, ?_, ?_⟩
    · refine (Function.forall_update_iff _ fun j (ts : List Task) => ∀ t ∈ ts, t.client = j ∧
        t.name = (x.client j).name ∧ (t.push = true → ∀ l ∈ t.body,
          Entailed (frame t.name) sem t.path l)).mpr ⟨fun t ht => ?_, fun j _ => hx.sent j⟩
      exact (List.mem_append.mp ht).elim (hx.sent i t) (right t)
    · exact (Function.forall_update_iff _ fun j (ts : List Task) =>
        x.linked j = true → Waits frame sem (x.client j) ts (x.inbox j)).mpr
          ⟨waits, fun j _ => hx.waiting j⟩
  · exact hx

theorem work {env : LemmaServer.Env} {t : Task} {rest : List Task} (hx : x.Sound frame sem)
    (next : x.outbox i = t :: rest) (apart : Apart x.history t) :
    (x.work env i t rest).Sound frame sem := by
  obtain ⟨hclient, hname, hright⟩ := hx.sent i t (next ▸ List.mem_cons_self)
  have left := Prog.wp_final (wp_lemmaWorker env t hx.stored)
  have history : ∀ u ∈ t :: x.history, u.push = true →
      ∀ l ∈ u.body, Entailed (frame u.name) sem u.path l := by
    intro u hu
    rcases List.mem_cons.mp hu with rfl | hu
    · exact hright
    · exact hx.history u hu
  obtain ⟨rs, hsent, hcount, hrs⟩ := replied history apart left
  have news (j : Nat) : (x.work env i t rest).inbox j =
      x.inbox j ++ rs.filter fun r => r.client = j := by
    simp only [Exchange.work, hsent, List.drop_left]
  refine ⟨hx.clients, history, left.1, ?_, fun j hl => ?_⟩
  · refine (Function.forall_update_iff _ fun j (ts : List Task) => ∀ t ∈ ts, t.client = j ∧
      t.name = (x.client j).name ∧ (t.push = true → ∀ l ∈ t.body,
        Entailed (frame t.name) sem t.path l)).mpr ⟨fun u hu => ?_, fun j _ => hx.sent j⟩
    exact hx.sent i u (next ▸ List.mem_cons_of_mem _ hu)
  · have waits := hx.waiting j hl
    rw [news]
    by_cases hj : j = i
    · subst hj
      rw [next] at waits
      simp only [Exchange.work, Function.update_self]
      refine waits.work (Nat.le_trans (List.length_filter_le _ _) hcount) fun _ r hr l hl => ?_
      exact hname ▸ (hrs r (List.mem_of_mem_filter hr)).2 l hl
    · have none : (rs.filter fun r => decide (r.client = j)) = [] :=
        List.filter_eq_nil_iff.mpr fun r hr => by
          simp only [decide_eq_true_eq, (hrs r hr).1, hclient]
          exact Ne.symm hj
      rw [none, List.append_nil]
      simpa only [Exchange.work, Function.update_of_ne hj] using waits

/-- A step of one client that leaves the pull worker where it was. -/
theorem keep (hx : x.Sound frame sem) (keeps : (x.client i).Keeps s)
    (sound : s.Sound (frame (x.client i).name) sem) : (x.put i s).Sound frame sem :=
  hx.put keeps.name sound fun hl => (hx.waiting i hl).keep keeps.name keeps.asking keeps.header

theorem push {b : Branch} {ls : List LemmaServer.NetLemma}
    {rest : Table Branch (List LemmaServer.NetLemma)} (hx : x.Sound frame sem)
    (next : (x.client i).publishing = (b, ls) :: rest) :
    ((x.put i { x.client i with publishing := rest }).post i
      ((x.client i).pushed i b ls)).Sound frame sem := by
  have hc := hx.clients i
  have hput : (x.put i { x.client i with publishing := rest }).Sound frame sem :=
    hx.keep ⟨rfl, rfl, fun _ hp => hp⟩ { hc with
      publishing := fun e he => hc.publishing e (next ▸ List.mem_cons_of_mem _ he) }
  have pushes : ∀ t ∈ (x.client i).pushed i b ls, t.push = true ∧ t.client = i ∧
      t.name = (x.client i).name ∧ t.path = b ∧ t.body = ls := by
    unfold Sharer.pushed
    split <;> simp
  refine hput.post (fun t ht => ?_) fun hl => (hput.waiting i hl).push fun t ht => (pushes t ht).1
  obtain ⟨-, hclient, hname, hpath, hbody⟩ := pushes t ht
  refine ⟨hclient, ?_, fun _ l hl => ?_⟩
  · simpa only [Exchange.put, Function.update_self] using hname
  · rw [hname, hpath]
    exact hc.publishing _ (next ▸ List.mem_cons_self) l (hbody ▸ hl)

theorem ask {p : Branch} {amount : Nat} {query : Bytes} (hx : x.Sound frame sem)
    (header : (x.client i).header = some p) (free : (x.client i).asking = false)
    (fresh : (x.client i).answer = none) :
    ((x.put i { x.client i with asking := true }).post i
      [(x.client i).request i p amount query]).Sound frame sem := by
  have hc := hx.clients i
  have hput : (x.put i { x.client i with asking := true }).Sound frame sem :=
    hx.put rfl { hc with answer := by simp [fresh] } fun hl =>
      have idle := (hx.waiting i hl).idle free
      .of_idle idle.1 idle.2
  refine hput.post (fun t ht => ?_) fun hl => ?_
  · obtain rfl := List.mem_singleton.mp ht
    exact ⟨rfl, by simp [Exchange.put, Sharer.request], by simp [Sharer.request]⟩
  · obtain ⟨hout, hinn⟩ := (hx.waiting i hl).idle free
    simp only [Exchange.put, Function.update_self]
    exact hinn ▸ .ask hout rfl header

theorem read {r : Reply} {rest : List Reply} (hx : x.Sound frame sem)
    (asking : (x.client i).asking = true) (linked : x.linked i = true)
    (next : x.inbox i = r :: rest) :
    Sound frame sem
      { x.put i ((x.client i).read r) with inbox := Function.update x.inbox i rest } := by
  have waits := hx.waiting i linked
  rw [next] at waits
  obtain ⟨hout, rfl⟩ := waits.read
  obtain ⟨-, p, header, right⟩ := waits.told r List.mem_cons_self
  have fresh : (x.client i).answer = none := Option.eq_none_iff_forall_ne_some.mpr fun ls hls => by
    cases asking.symm.trans ((hx.clients i).answer ls hls).1
  have dropped : Sound frame sem { x with inbox := Function.update x.inbox i [] } := by
    refine ⟨hx.clients, hx.history, hx.stored, hx.sent, ?_⟩
    exact (Function.forall_update_iff _ fun j (rs : List Reply) =>
      x.linked j = true → Waits frame sem (x.client j) (x.outbox j) rs).mpr
        ⟨fun _ => .of_idle hout rfl, fun j _ => hx.waiting j⟩
  refine dropped.put ?_ ((hx.clients i).read fresh header right) fun _ => .of_idle hout ?_
  · unfold Sharer.read
    split <;> rfl
  · exact Function.update_self ..

theorem cut (hx : x.Sound frame sem) (i : Nat) :
    Sound frame sem { x with linked := Function.update x.linked i false } where
  clients := hx.clients
  history := hx.history
  stored := hx.stored
  sent := hx.sent
  waiting := (Function.forall_update_iff _ fun j (linked : Bool) =>
      linked = true → Waits frame sem (x.client j) (x.outbox j) (x.inbox j)).mpr
    ⟨fun hl => by simp at hl, fun j _ => hx.waiting j⟩

theorem step (hx : x.Sound frame sem) (h : Step Apart N frame sem x y) : y.Sound frame sem := by
  cases h with
  | @learn i ls _ searching right stores =>
    exact hx.keep ⟨rfl, rfl, fun _ hp => hp⟩ ((hx.clients i).learn searching right stores)
  | @swap i _ _ done swaps =>
    exact hx.keep ⟨rfl, rfl, fun _ hp => hp⟩ ((hx.clients i).swap swaps)
  | push next => exact hx.push next
  | @plain i a s known plain =>
    exact hx.keep (Sharer.keeps_plain plain) ((hx.clients i).plain plain)
  | @load i s load => exact hx.keep (Sharer.keeps_load load) ((hx.clients i).load load)
  | @execute i s execute =>
    exact hx.keep (Sharer.keeps_execute execute) ((hx.clients i).execute execute)
  | ask header free fresh => exact hx.ask header free fresh
  | read asking linked next => exact hx.read asking linked next
  | @fail i fresh broken =>
    exact hx.put rfl ((hx.clients i).giveUp fresh) fun hl => nomatch broken.symm.trans hl
  | @insert i s harmless insert =>
    obtain ⟨⟨ls, hls⟩, name, asking⟩ := Sharer.answered_of_insert insert
    refine hx.put name ((hx.clients i).insert harmless insert) fun hl => ?_
    obtain ⟨hout, hinn⟩ := (hx.waiting i hl).idle ((hx.clients i).answer ls hls).1
    exact .of_idle hout hinn
  | @work i env t rest next allowed => exact hx.work next allowed
  | @cut i => exact hx.cut i
  | close broken => exact { hx with stored := hx.stored.of_lemmas rfl }

theorem reaches (hx : x.Sound frame sem) (h : Reaches Apart N frame sem x y) :
    y.Sound frame sem := by
  induction h with
  | refl => exact hx
  | tail _ h ih => exact ih.step h

end Sound

/-- Lemmas that clients share follow from the frames they are asserted in, so that a solver
decides what it would decide without them. -/
theorem Reaches.lemmas_entailed {sendAgain : Bool} {names : Nat → Bytes} {nodes : Nat → Branch}
    (h : Reaches Apart N frame sem (init sendAgain fun i => .start (names i) (nodes i)) x)
    (i : Nat) :
    (∀ e ∈ (x.client i).lemmas, e.1 <+: (x.client i).loaded ∧
      formula (frame (x.client i).name) e.1 ⊆ sem e.2.clause) ∧
    { v | v ∈ formula (frame (x.client i).name) (x.client i).loaded ∧
      ∀ e ∈ (x.client i).lemmas, v ∈ sem e.2.clause } =
        formula (frame (x.client i).name) (x.client i).loaded := by
  have hx : x.Sound frame sem := (sound_init fun _ => Sharer.sound_start _ _).reaches h
  have lemmas := (hx.clients i).lemmas
  refine ⟨lemmas, Set.Subset.antisymm (fun v hv => hv.1) fun v hv => ⟨hv, fun e he => ?_⟩⟩
  obtain ⟨hpre, hsem⟩ := lemmas e he
  exact hsem (formula_anti hpre hv)

/-- A lemma on the root goes to a solver that is on a partition. -/
def shared : List Move :=
  [.learn 1 [⟨utf8 "x", 0⟩], .swap 1, .push 1, .work 1,
    .plain 2 (.receive (.incremental [0, 1])), .plain 2 .pop, .execute 2, .plain 2 .pop, .execute 2,
    .load 2, .plain 2 .pull, .ask 2 5 (utf8 "(check-sat)"), .work 2, .read 2, .insert 2,
    .plain 2 .pop, .execute 2]

theorem Reaches.lemmas_entailed_shared :
    ∃ x, shared.foldlM (move .sorting) (init false fun _ => .start (utf8 "a.smt2") []) = some x ∧
      (x.client 2).lemmas = [([0, 1], ⟨utf8 "x", 0⟩)] ∧ (x.client 2).loaded = [0, 1] ∧
      { v : Nat | v ∈ formula (fun b => { v | b = [] → 0 < v }) [0, 1] ∧
        ∀ e ∈ (x.client 2).lemmas, v ∈ { v : Nat | e.2.clause = utf8 "x" → 0 < v } } =
          formula (fun b => { v | b = [] → 0 < v }) [0, 1] := by
  obtain ⟨x, hx, hlemmas, hloaded⟩ := exists_of_any
    (o := shared.foldlM (move .sorting) (init false fun _ => .start (utf8 "a.smt2") []))
    (P := fun x => (x.client 2).lemmas = [([0, 1], ⟨utf8 "x", 0⟩)] ∧ (x.client 2).loaded = [0, 1])
    (by decide +kernel)
  have hreach : Reaches (fun _ _ => True) Plain (fun _ b => { v : Nat | b = [] → 0 < v })
      (fun c => { v | c = utf8 "x" → 0 < v })
      (init false fun _ => .start (utf8 "a.smt2") []) x := by
    refine .of_script (fun i ls hm s l hl => ?_) (fun i b hm => ?_) hx
    · obtain ⟨-, rfl⟩ : i = 1 ∧ ls = [⟨utf8 "x", 0⟩] := by simpa [shared] using hm
      obtain rfl := List.mem_singleton.mp hl
      refine ⟨0, rfl, Nat.zero_le _, fun v hv _ => hv.1 0 (Nat.zero_le _) (by simp)⟩
    · obtain ⟨-, rfl⟩ : i = 2 ∧ b = [0, 1] := by simpa [shared] using hm
      exact rfl
  have start : (init false fun _ => Sharer.start (utf8 "a.smt2") []).Within Plain :=
    ⟨fun _ => Sharer.within_start _ rfl, by simp [init], by simp [init]⟩
  have h := (Reaches.lemmas_entailed (hreach.within start fun _ h => h).1 2).2
  rw [hloaded] at h
  exact ⟨x, hx, hlemmas, hloaded, h⟩

end Sound

end Exchange

end Smts
