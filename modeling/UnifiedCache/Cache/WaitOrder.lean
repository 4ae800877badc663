/-
  UnifiedCache.Cache.WaitOrder — transfer threads do not wait for each other in a circle.

  A transfer thread whose shard has no backend task of its own waits in `WaitBackendTaskReady`
  for the owner's mark. The owner's item may be in another process's queue, behind an item whose
  transfer thread waits in turn. Items are numbered in the order of the `Get`s:
  - the owner of a node is the first of its live handles (`OwnerFirst`);
  - an item goes to its transfer thread before the later items of its process, except that task
    launch pushes the items first that were READY, and these are never waited on (`InOrder`).
  So each thread waits behind an item that is older than its own (`WaitsBehind.older`): there is no
  cycle (`reach_acyclic`), and the thread with the oldest item waits behind nobody.
-/

import UnifiedCache.Cache.LoadWait

namespace UnifiedCache.Cache

open UnifiedCache.Base UnifiedCache.Detail

variable {Block : Type}

/-- The transfer thread that has item `v` waits for the mark of the node's owner. -/
structure Blocked (s : Store Block) (v : Nat) : Prop where
  lt : v < s.nItem
  stage : (s.item v).stage = .waiting ∨ (s.item v).stage = .spinning
  backend : (s.item v).backend = .none
  loading : s.buf.getState (s.item v).pos = .loading

/-- How far an item is from its transfer thread: with it, in `running_`, in a vector of the
    dispatcher, in its hand, past all. -/
def Stage.rank : Stage → Nat
  | .waiting | .spinning | .ready | .flushing | .syncing | .failing | .counting => 0
  | .queued => 1
  | .collected => 2
  | .got => 3
  | _ => 4

/-- Item `u` is the live owner of item `v`'s node and has yet to come to its transfer thread. -/
structure OwnerComing (s : Store Block) (v u : Nat) : Prop where
  lt : u < s.nItem
  owner : (s.item u).owner = true
  live : (s.item u).handle ≠ .released
  pos : (s.item u).pos = (s.item v).pos
  coming : 1 ≤ (s.item u).stage.rank ∧ (s.item u).stage.rank ≤ 3

/-- The transfer thread of process `P` is blocked on a node whose owner is queued behind the item
    that the transfer thread of process `Q` is blocked on. -/
def WaitsBehind (s : Store Block) (P Q : Nat) : Prop :=
  ∃ v u w, Blocked s v ∧ (s.item v).proc = P ∧ OwnerComing s v u ∧ (s.item u).proc = Q ∧ Blocked s w ∧ (s.item w).proc = Q

/-- Item `w` goes to its transfer thread before item `u`. -/
structure Store.Ahead (s : Store Block) (w u : Nat) : Prop where
  proc : (s.item w).proc = (s.item u).proc
  coming : (s.item u).stage.rank ≤ 3
  before : (s.item w).stage.rank < (s.item u).stage.rank ∨
    (s.item w).stage.rank = 1 ∧ (s.item u).stage.rank = 1 ∧ (s.item w).ticket < (s.item u).ticket

structure InOrder (s : Store Block) : Prop where
  ahead : ∀ w u, w < s.nItem → u < s.nItem → s.Ahead w u → (s.item w).ready = true ∨ w < u
  ticket : ∀ u v, u < s.nItem → v < s.nItem → (s.item u).proc = (s.item v).proc → (s.item u).stage = .queued →
    (s.item v).stage = .queued → (s.item u).ticket = (s.item v).ticket → u = v

/-- A live owner is the first of its node's live handles. -/
def OwnerFirst (s : Store Block) : Prop :=
  ∀ u v, u < s.nItem → v < s.nItem → (s.item u).owner = true → (s.item u).handle ≠ .released → (s.item v).handle ≠ .released →
    (s.item u).pos = (s.item v).pos → u ≤ v

/-- What was collected as ready is READY as long as it is held. -/
def ReadyStays (s : Store Block) : Prop :=
  ∀ v, v < s.nItem → (s.item v).ready = true → (s.item v).handle ≠ .released → s.buf.getState (s.item v).pos = .ready

/-! ## The order of the items -/

section Order

variable {C : Config Block} {s s' : Store Block} {b : Buf Block} {l : StoreLabel Block} {p q u v w t j : Nat} {x y : Item}

theorem Stage.rank_zero {st : Stage} : st.rank = 0 ↔ st.transferring = true := by
  cases st <;> decide

theorem Stage.rank_one {st : Stage} : st.rank = 1 ↔ st = .queued := by
  cases st <;> decide

theorem Stage.rank_two {st : Stage} : st.rank = 2 ↔ st = .collected := by
  cases st <;> decide

theorem Stage.rank_three {st : Stage} : st.rank = 3 ↔ st = .got := by
  cases st <;> decide

/-- How an item comes nearer to its transfer thread. -/
inductive Nearer (C : Config Block) (s : Store Block) (v : Nat) : StoreLabel Block → Item → Prop
  | past (l : StoreLabel Block) (x : Item) (past : x.stage.rank = 4) : Nearer C s v l x
  | stays (l : StoreLabel Block) (x : Item) (rank : x.stage.rank = (s.item v).stage.rank) (ticket : x.ticket = (s.item v).ticket)
      (ready : x.ready = (s.item v).ready) : Nearer C s v l x
  | collect (p : Nat) (ok : Bool) (x : Item) (proc : (s.item v).proc = p)
      (pc : (s.proc p).dispatcher = .got (s.item v).task (s.item v).shard v) (rank : (s.item v).stage.rank = 3)
      (rank' : x.stage.rank = 2) : Nearer C s v (.dispatch p (.submit ok)) x
  | queue (p : Nat) (ok : Bool) (x : Item) (proc : (s.item v).proc = p)
      (pc : (s.proc p).dispatcher = .got (s.item v).task (s.item v).shard v) (mode : C.taskLaunch p = false)
      (rank : (s.item v).stage.rank = 3) (rank' : x.stage.rank = 1) (ticket : x.ticket = (s.proc p).tickets)
      (ready : x.ready = (s.item v).ready) : Nearer C s v (.dispatch p (.submit ok)) x
  | push (p t : Nat) (x : Item) (proc : (s.item v).proc = p) (pc : (s.proc p).dispatcher = .pushing t)
      (rank : (s.item v).stage.rank = 2) (first : ∀ w, w < s.nItem → s.At p .collected w → s.pushedBefore v w)
      (rank' : x.stage.rank = 1) (ticket : x.ticket = (s.proc p).tickets) (ready : x.ready = (s.item v).ready) :
      Nearer C s v (.dispatch p (.push v)) x
  | take (x : Item) (rank : (s.item v).stage.rank = 1) (next : s.Next v) (rank' : x.stage.rank = 0)
      (ready : x.ready = (s.item v).ready) : Nearer C s v (.transfer v .take) x

theorem Move.nearer (h : Move C s b v l x) : Nearer C s v l x := by
  cases h with
  | same l other => exact .stays _ _ rfl rfl rfl
  | collect p ok backend pc proc stage mode submitted =>
    exact .collect p ok _ proc pc (stage ▸ rfl) rfl
  | queue p ok backend pc proc stage mode submitted =>
    exact .queue p ok _ proc pc mode (stage ▸ rfl) rfl rfl rfl
  | push p t pc collected first =>
    obtain ⟨-, proc, hst⟩ := collected
    exact .push p t _ proc pc (hst ▸ rfl) first (by simp [Store.pushItem, Stage.rank]) (by simp [Store.pushItem])
      (by simp [Store.pushItem])
  | take stage next fine => exact .take _ (stage ▸ rfl) next rfl rfl
  | skipLast stage next failed waiter => exact .take _ (stage ▸ rfl) next rfl rfl
  | waited ok stage => exact .stays _ _ (by cases ok <;> simp [stage, Stage.rank]) rfl rfl
  | look stage' stage backend outcome =>
    refine .stays _ _ ?_ rfl rfl
    obtain ⟨-, rfl⟩ | ⟨-, rfl⟩ | ⟨-, rfl⟩ := outcome <;> simp [stage, Stage.rank]
  | check stage =>
    refine .stays _ _ ?_ rfl rfl
    simp only [stage]
    split <;> rfl
  | hold stage mode =>
    simp only
    split
    · exact .stays _ _ (by simp [stage, Stage.rank]) rfl rfl
    · exact .past _ _ rfl
  | copy ok part stage mode =>
    cases ok with
    | false => exact .stays _ _ (by simp [stage, Stage.rank]) rfl rfl
    | true =>
      cases hw : (s.item v).waiter with
      | true => exact .stays _ _ (by simp [stage, Stage.rank]) rfl rfl
      | false => exact .past _ _ (by simp [Stage.rank])
  | flush part stage => exact .stays _ _ (by simp [stage, Stage.rank]) rfl rfl
  | flushFails part stage => exact .stays _ _ (by simp [stage, Stage.rank]) rfl rfl
  | sync ok h stage handle => exact .stays _ _ (by cases ok <;> simp [stage, Stage.rank]) rfl rfl
  | fail stage => exact .stays _ _ (by simp [stage, Stage.rank]) rfl rfl
  | flushed u part other proc uStage stage => exact .stays _ _ rfl rfl rfl
  | synced | loadOver | dumpOver | release => exact .stays _ _ rfl rfl rfl
  | syncDump p t pc proc isLoad =>
    refine .stays _ _ ?_ rfl rfl
    simp only
    split
    · next e => rw [e]; rfl
    · rfl
  | _ => exact .past _ _ rfl

/-- The hand of a dispatcher holds one item. -/
theorem Linked.got_unique (hl : Linked s) (hu : u < s.nItem) (hst : (s.item u).stage.rank = 3) (hp : p = (s.item u).proc)
    (hpc : (s.proc p).dispatcher = .got t j v) : u = v := by
  have h := hl.gotOnly u hu (Stage.rank_three.mp hst)
  rw [← hp, hpc] at h
  obtain h | h | h := h
  · injection h with _ _ h
    exact h.symm
  · cases h
  · cases h

/-- While the vectors are pushed, the hand is empty. -/
theorem Linked.pushing_got (hl : Linked s) (hu : u < s.nItem) (hp : p = (s.item u).proc)
    (hpc : (s.proc p).dispatcher = .pushing t) :
    (s.item u).stage.rank ≠ 3 := by
  subst hp
  intro hst
  have h := hl.gotOnly u hu (Stage.rank_three.mp hst)
  rw [hpc] at h
  obtain h | h | h := h <;> cases h

theorem StoreCase.ahead_old (hl : Linked s) (hline : Line C s) (ho : InOrder s) (hw : w < s.nItem) (hu : u < s.nItem)
    (ha : s'.Ahead w u) (h : StoreCase C s l s') : (s'.item w).ready = true ∨ w < u := by
  have hp : (s.item w).proc = (s.item u).proc := by
    rw [← (h.kept.fixed hw).proc, ← (h.kept.fixed hu).proc]
    exact ha.proc
  have hcoming := ha.coming
  have hbefore := ha.before
  have hne : u ≠ w := by
    intro e
    subst e
    omega
  have hnw := (h.move hl hw).nearer
  have hnu := (h.move hl hu).nearer
  -- items that were in order, the first of which keeps its mark
  have hsame : (s'.item w).ready = (s.item w).ready → s.Ahead w u → (s'.item w).ready = true ∨ w < u := by
    intro e ha
    rw [e]
    exact ho.ahead w u hw hu ha
  have hticket : (s.item u).stage.rank = 1 → (s.item u).ticket < (s.proc (s.item w).proc).tickets := by
    intro hr
    rw [hp]
    exact hline.ticket u hu (Stage.rank_one.mp hr)
  generalize s'.item w = x at hnw hbefore hsame ⊢
  generalize s'.item u = y at hnu hbefore hcoming
  cases hnw with
  | past _ _ past => omega
  | stays _ _ rank ticket ready =>
    apply hsame ready
    cases hnu with
    | past _ _ past => omega
    | stays | collect | queue | push => exact ⟨hp, by omega, by omega⟩
    | take => omega
  | take _ rank₀ next rank' ready =>
    -- its turn has come
    apply hsame ready
    cases hnu with
    | past _ _ past => omega
    | stays _ _ rank₁ ticket' ready' =>
      refine ⟨hp, by omega, ?_⟩
      by_cases hq : (s.item u).stage.rank = 1
      · have hle := next.2.1 u hu ⟨hu, hp.symm, Stage.rank_one.mp hq⟩
        have hnot : (s.item w).ticket ≠ (s.item u).ticket := fun e =>
          hne (ho.ticket w u hw hu hp (Stage.rank_one.mp rank₀) (Stage.rank_one.mp hq) e).symm
        omega
      · omega
    | take => exact absurd rfl hne
  | collect p ok _ proc pc rank₀ rank' =>
    -- behind it is only what is in the dispatcher's hand: itself
    exfalso
    cases hnu with
    | stays _ _ rank₁ ticket' ready' => exact hne (hl.got_unique hu (by omega) (proc.symm.trans hp) pc)
    | _ => omega
  | queue p ok _ proc pc mode rank₀ rank' ticket ready =>
    exfalso
    cases hnu with
    | past _ _ past => omega
    | stays _ _ rank₁ ticket' ready' =>
      have hq : (s.item u).stage.rank = 1 ∨ (s.item u).stage.rank = 2 ∨ (s.item u).stage.rank = 3 := by omega
      rcases hq with hq | hq | hq
      · have := hticket hq
        rw [proc] at this
        omega
      · have := (hline.collected u hu (Stage.rank_two.mp hq)).1
        rw [← hp, proc, mode] at this
        cases this
      · exact hne (hl.got_unique hu hq (proc.symm.trans hp) pc)
    | collect _ _ _ proc' pc' rank₁ => exact hne (hl.got_unique hu rank₁ (proc.symm.trans hp) pc)
    | queue _ _ _ proc' pc' mode' rank₁ => exact hne (hl.got_unique hu rank₁ (proc.symm.trans hp) pc)
  | push p t _ proc pc rank₀ first rank' ticket ready =>
    cases hnu with
    | past _ _ past => omega
    | stays _ _ rank₁ ticket' ready' =>
      have hq : (s.item u).stage.rank = 1 ∨ (s.item u).stage.rank = 2 ∨ (s.item u).stage.rank = 3 := by omega
      rcases hq with hq | hq | hq
      · have := hticket hq
        rw [proc] at this
        omega
      · -- it is pushed before the others that are still in the vectors
        rcases first u hu ⟨hu, hp.symm.trans proc, Stage.rank_two.mp hq⟩ with ⟨hr, -⟩ | ⟨-, hle⟩
        · exact .inl (ready.trans hr)
        · exact .inr (by omega)
      · exact absurd hq (hl.pushing_got hu (proc.symm.trans hp) pc)
    | push => exact absurd rfl hne

theorem StoreCase.ticket_old (hl : Linked s) (hline : Line C s) (ho : InOrder s) (hu : u < s.nItem) (hv : v < s.nItem)
    (hp : (s.item u).proc = (s.item v).proc) (hqu : (s'.item u).stage = .queued) (hqv : (s'.item v).stage = .queued)
    (ht : (s'.item u).ticket = (s'.item v).ticket) (h : StoreCase C s l s') : u = v := by
  obtain ⟨hu', htu⟩ | hpu := (h.move hl hu).queued hqu <;> obtain ⟨hv', htv⟩ | hpv := (h.move hl hv).queued hqv
  · exact ho.ticket u v hu hv hp hu' hv' (by omega)
  · have h1 := hline.ticket u hu hu'
    have h2 := hpv.ticket
    rw [hp] at h1
    omega
  · have h1 := hline.ticket v hv hv'
    have h2 := hpu.ticket
    rw [hp] at h2
    omega
  · exact hpu.unique hpv hp

theorem StoreCase.inOrder (hl : Linked s) (hline : Line C s) (ho : InOrder s) (h : StoreCase C s l s') : InOrder s' := by
  -- a new item is behind all others
  have hnew : ∀ u, Gets C s s' l → u = s.nItem → 3 ≤ (s'.item u).stage.rank ∧ (s'.item u).stage ≠ .queued := by
    intro _ hget e
    subst e
    cases hget with
    | load p t j blockId shardIdx i owner pc shard spec item got =>
      rw [item]
      exact ⟨by simp [Item.start, Stage.rank], by simp [Item.start]⟩
    | dump p t j blockId shardIdx i owner pc shard spec item got =>
      rw [item]
      exact ⟨by simp [Item.start, Stage.rank], by simp [Item.start]⟩
  refine ⟨?_, ?_⟩
  · intro w u hw hu ha
    rcases h.old_or_new hw with hw | ⟨rfl, hget⟩
    · rcases h.old_or_new hu with hu | ⟨rfl, hget⟩
      · exact h.ahead_old hl hline ho hw hu ha
      · exact .inr hw
    · have h3 := (hnew _ hget rfl).1
      have hc := ha.coming
      have hb := ha.before
      omega
  · intro u v hu hv hp hqu hqv ht
    rcases h.old_or_new hu with hu | ⟨rfl, hget⟩
    · rcases h.old_or_new hv with hv | ⟨rfl, hget⟩
      · rw [(h.kept.fixed hu).proc, (h.kept.fixed hv).proc] at hp
        exact h.ticket_old hl hline ho hu hv hp hqu hqv ht
      · exact absurd hqv (hnew _ hget rfl).2
    · exact absurd hqu (hnew _ hget rfl).2

end Order

/-! ## Owners and readiness -/

section Nodes

variable {C : Config Block} {s s' : Store Block} {b : Buf Block} {l : StoreLabel Block} {p u v : Nat} {x : Item}

theorem StoreCase.ownerFirst (hr : RefInv s) (hf : OwnerFirst s) (h : StoreCase C s l s') : OwnerFirst s' := by
  -- a new owner finds no live handle
  have hnew : ∀ v, Gets C s s' l → v < s.nItem → (s'.item s.nItem).owner = true → (s'.item v).handle ≠ .released →
      (s'.item s.nItem).pos ≠ (s'.item v).pos := by
    intro v hget hv ho hh hpos
    have h0 : (s.buf.metaAt (s'.item s.nItem).pos).reference = 0 := by
      cases hget with
      | load p t j blockId shardIdx i owner pc shard spec item got =>
        rw [item] at ho ⊢
        have := spec.owner
        rw [show owner = true from ho] at this
        simpa [Item.start, eq_comm] using this
      | dump p t j blockId shardIdx i owner pc shard spec item got =>
        rw [item] at ho ⊢
        have := spec.owner
        rw [show owner = true from ho] at this
        simpa [Item.start, eq_comm] using this
    have hpos0 := (hr.pos_iff _).mpr ⟨v, hv, fun e => hh (h.kept.released hv e), ((h.kept.fixed hv).pos.symm.trans hpos.symm)⟩
    omega
  intro u v hu hv ho hhu hhv hpos
  rcases h.old_or_new hu with hu | ⟨rfl, hget⟩
  · rcases h.old_or_new hv with hv | ⟨rfl, -⟩
    · have hfu := h.kept.fixed hu
      rw [hfu.pos, (h.kept.fixed hv).pos] at hpos
      exact hf u v hu hv (hfu.owner ▸ ho) (fun e => hhu (h.kept.released hu e)) (fun e => hhv (h.kept.released hv e)) hpos
    · exact Nat.le_of_lt hu
  · rcases h.old_or_new hv with hv | ⟨rfl, -⟩
    · exact absurd hpos (hnew v hget hv ho hhv)
    · exact Nat.le_refl _

theorem Move.ready (hx : x.ready = true) (h : Move C s b v l x) :
    (s.item v).ready = true ∨ s.buf.getState (s.item v).pos = .ready := by
  cases h with
  | collect p ok backend pc proc stage mode submitted => exact .inr (of_decide_eq_true hx)
  | push p t pc collected =>
    left
    simpa [Store.pushItem] using hx
  | _ => exact .inl hx

theorem StoreCase.readyStays (hl : Linked s) (hr : RefInv s) (hs : ReadyStays s) (h : StoreCase C s l s') : ReadyStays s' := by
  intro v hv hready hh
  rcases h.old_or_new hv with hv | ⟨rfl, hget⟩
  · have hh := fun e => hh (h.kept.released hv e)
    have hst : s.buf.getState (s.item v).pos = .ready := by
      rcases (h.move hl hv).ready hready with hready | hst
      · exact hs v hv hready hh
      · exact hst
    rw [(h.kept.fixed hv).pos, (h.kept.live hr hv hh).1 (by rw [hst]; decide)]
    exact hst
  · cases hget with
    | load p t j blockId shardIdx i owner pc shard spec item got | dump p t j blockId shardIdx i owner pc shard spec item got =>
      rw [item] at hready
      cases hready

end Nodes

/-! ## Every reachable state -/

/-- A relation on things of which each has one age, and whose edges go to the younger age, has
    paths to younger ages only. -/
theorem transGen_older {α : Type*} {R : α → α → Prop} {age : α → Nat → Prop} (hage : ∀ a m n, age a m → age a n → m = n)
    (hR : ∀ a b, R a b → ∃ m n, age a m ∧ age b n ∧ n < m) {a b : α} (h : Relation.TransGen R a b) :
    ∃ m n, age a m ∧ age b n ∧ n < m := by
  induction h with
  | single hab => exact hR _ _ hab
  | tail _ hbc ih =>
    obtain ⟨m, n, hm, hn, hlt⟩ := ih
    obtain ⟨n', k, hn', hk, hlt'⟩ := hR _ _ hbc
    obtain rfl := hage _ _ _ hn hn'
    exact ⟨m, k, hm, hk, Nat.lt_trans hlt' hlt⟩

theorem Blocked.transferring {s : Store Block} {v : Nat} (h : Blocked s v) : (s.item v).stage.rank = 0 := by
  rcases h.stage with e | e <;> rw [e] <;> rfl

section Reach

variable [DecidableEq Block] {C : Config Block} {ok : Store Block → StoreLabel Block → Prop} {s : Store Block} {u v w P Q : Nat}

theorem reach_inOrder (h : Reach (cacheStore C) ok s) : InOrder s := by
  refine Reach.inv_with (I := InOrder) (J := fun s => Linked s ∧ Line C s) (fun _ hr => ⟨reach_linked hr, reach_line hr⟩)
    (fun s hi => ⟨fun w u hw => ?_, fun u v hu => ?_⟩) (fun _ _ _ hJ hI _ hst => (storeStep_case hst).inOrder hJ.1 hJ.2 hI) h
  all_goals
    intro
    rw [hi.nItem] at *
    omega

theorem reach_ownerFirst (h : Reach (cacheStore C) ok s) : OwnerFirst s := by
  refine Reach.inv_with (I := OwnerFirst) (fun _ => reach_refInv) (fun s hi u v hu => ?_)
    (fun _ _ _ hr hI _ hst => (storeStep_case hst).ownerFirst hr hI) h
  rw [hi.nItem] at hu
  omega

theorem reach_readyStays (h : Reach (cacheStore C) ok s) : ReadyStays s := by
  refine Reach.inv_with (I := ReadyStays) (J := fun s => Linked s ∧ RefInv s) (fun _ hr => ⟨reach_linked hr, reach_refInv hr⟩)
    (fun s hi v hv => ?_) (fun _ _ _ hJ hI _ hst => (storeStep_case hst).readyStays hJ.1 hJ.2 hI) h
  rw [hi.nItem] at hv
  omega

theorem Blocked.held (hr : Reach (cacheStore C) ok s) (h : Blocked s v) : (s.item v).handle ≠ .released := by
  have : (s.item v).stage.past = false := by
    rcases h.stage with e | e <;> rw [e] <;> rfl
  rw [reach_keeps hr v h.lt this]
  decide

theorem Blocked.unique (hr : Reach (cacheStore C) ok s) (hv : Blocked s v) (hw : Blocked s w)
    (hp : (s.item v).proc = (s.item w).proc) :
    v = w :=
  (reach_linked hr).alone v w hv.lt hw.lt hp (Stage.rank_zero.mp hv.transferring) (Stage.rank_zero.mp hw.transferring)

/-- The item that thread `P` waits behind is older than its own. -/
theorem WaitsBehind.older (hr : Reach (cacheStore C) ok s) (h : WaitsBehind s P Q) :
    ∃ v w, (Blocked s v ∧ (s.item v).proc = P) ∧ (Blocked s w ∧ (s.item w).proc = Q) ∧ w < v := by
  obtain ⟨v, u, w, hv, hP, hu, hQ, hw, hQ'⟩ := h
  refine ⟨v, w, ⟨hv, hP⟩, ⟨hw, hQ'⟩, ?_⟩
  -- the owner is older than item `v`, and item `w` older than the owner
  have huv : u ≤ v := reach_ownerFirst hr u v hu.lt hv.lt hu.owner hu.live (hv.held hr) hu.pos
  have hwu : (s.item w).ready = true ∨ w < u := by
    apply (reach_inOrder hr).ahead w u hw.lt hu.lt
    exact ⟨hQ'.trans hQ.symm, hu.coming.2, .inl (by rw [hw.transferring]; exact hu.coming.1)⟩
  rcases hwu with hready | hwu
  · have := reach_readyStays hr w hw.lt hready (hw.held hr)
    rw [hw.loading] at this
    cases this
  · omega

/-- No transfer thread waits behind itself, over any number of others. -/
theorem reach_acyclic (hr : Reach (cacheStore C) ok s) (P : Nat) : ¬ Relation.TransGen (WaitsBehind s) P P := by
  intro hcycle
  obtain ⟨m, n, ⟨hm, hp⟩, ⟨hn, hp'⟩, hlt⟩ := transGen_older
    (show ∀ P v w, (Blocked s v ∧ (s.item v).proc = P) → (Blocked s w ∧ (s.item w).proc = P) →
      v = w from fun _ _ _ hv hw => hv.1.unique hr hw.1 (hv.2.trans hw.2.symm)) (fun _ _ h => h.older hr) hcycle
  have := hm.unique hr hn (hp.trans hp'.symm)
  omega

/-- The thread that is blocked with the oldest item waits behind nobody. -/
theorem exists_oldest (hr : Reach (cacheStore C) ok s) (h : Blocked s w) :
    ∃ v, Blocked s v ∧ ∀ Q, ¬ WaitsBehind s (s.item v).proc Q := by
  classical
  have hex : ∃ v, Blocked s v := ⟨w, h⟩
  refine ⟨Nat.find hex, Nat.find_spec hex, fun Q hwait => ?_⟩
  obtain ⟨v, u, ⟨hv, hp⟩, ⟨hu, -⟩, hlt⟩ := hwait.older hr
  have := hv.unique hr (Nat.find_spec hex) hp
  have := Nat.find_min' hex hu
  omega

end Reach

end UnifiedCache.Cache
