import Xv6.Bio.Cache
import Xv6.Bio.Links

/-! The structure of the buffer cache in every reachable state: the pointers form one circular list
of all buffers, a block has at most one buffer, the reference counts are exact, and unused buffers
stand in the order of their last release. -/
namespace Xv6.Bio.Lru
open Function Counting Dlist Transition List
attribute [local simp] Pos.refs
variable {P : Type} [Fintype P] {c d : Cache P} {l : List (Fin nbuf)} {b : Fin nbuf}

/-- The list `l` runs from `head.next` to `head.prev`. -/
@[grind cases] structure Inv (c : Cache P) (l : List (Fin nbuf)) : Prop where
  linked : Linked c.links l
  nodup : l.Nodup
  all : ∀ b, b ∈ l
  unique : ∀ b b', 1 ≤ (c.buf b).dev → (c.buf b').dev = (c.buf b).dev →
    (c.buf b').blockno = (c.buf b).blockno → b' = b
  count : ∀ b, (c.buf b).refcnt = c.callers b + c.pins b
  order : l.Pairwise fun x y => (c.buf x).refcnt = 0 → (c.buf y).refcnt = 0 →
    c.released y ≤ c.released x
  recent : ∀ b, c.released b ≤ c.clock

theorem linked_foldl (bs : List (Fin nbuf)) : ∀ (L : Links (Fin nbuf)) (l : List (Fin nbuf)),
    Linked L l → (bs.reverse ++ l).Nodup →
    Linked (bs.foldl Links.pushFront L) (bs.reverse ++ l) := by
  induction bs with
  | nil => exact fun L l h _ => h
  | cons b bs ih =>
    intro L l h hnd
    rw [reverse_cons, append_assoc] at hnd ⊢
    have hb := nodup_cons.mp (nodup_append.mp hnd).2.1
    exact ih (L.pushFront b) (b :: l) (h.pushFront hb.1 hb.2) hnd

omit [Fintype P] in
theorem linked_binit : Linked (Cache.binit : Cache P).links (List.finRange nbuf).reverse := by
  have hnd : ((List.finRange nbuf).reverse ++ []).Nodup := by
    rw [append_nil]
    exact nodup_reverse.mpr (nodup_finRange nbuf)
  have h := linked_foldl (List.finRange nbuf) .empty [] linked_empty hnd
  rwa [append_nil] at h

theorem inv_binit : Inv (Cache.binit : Cache P) (List.finRange nbuf).reverse where
  linked := linked_binit
  nodup := nodup_reverse.mpr (nodup_finRange nbuf)
  all b := mem_reverse.mpr (mem_finRange b)
  unique _ _ h := absurd h (by simp [Cache.binit])
  count b := by
    have hz : total (Pos.refs b) (fun _ : P => Pos.idle) = 0 := total_eq_zero.mpr fun _ => rfl
    simp [Cache.binit, Cache.callers, hz]
  order := List.Pairwise.imp (fun _ _ _ => le_rfl) (pairwise_of_forall (R := fun _ _ => True)
    fun _ _ => trivial)
  recent _ := le_rfl

namespace Inv

theorem length_le (h : Inv c l) : l.length ≤ nbuf := by
  have := h.nodup.length_le_card
  rwa [Fintype.card_fin] at this

theorem cached_eq_none (h : Inv c l) {dev blockno : ℕ} (hc : c.cached dev blockno = none)
    (b : Fin nbuf) : ¬ ((c.buf b).dev = dev ∧ (c.buf b).blockno = blockno) := by
  rw [Cache.cached, scan_next _ h.linked h.length_le] at hc
  simpa using List.find?_eq_none.mp hc b (h.all b)

/-- The buffer taken is unused, and no unused buffer was released before it. -/
theorem unused_eq_some (h : Inv c l) (hu : c.unused = some b) : (c.buf b).refcnt = 0 ∧
    ∀ x, (c.buf x).refcnt = 0 → c.released b ≤ c.released x := by
  rw [Cache.unused, scan_prev _ h.linked h.length_le] at hu
  have hb : (c.buf b).refcnt = 0 := by simpa using List.find?_some hu
  refine ⟨hb, fun x hx => ?_⟩
  obtain ⟨_, l1, l2, hl, hbefore⟩ := List.find?_eq_some_iff_append.mp hu
  have hlist : l = l2.reverse ++ b :: l1.reverse := by
    rw [← reverse_reverse l, hl]
    simp
  have hmem := h.all x
  grind

end Inv

variable {p : P}

theorem refcnt_pos (h : Inv c l) (hl : (c.buf b).lock = some p) : 0 < (c.buf b).refcnt := by
  rw [h.count, Cache.callers, hl]
  simp

theorem refcnt_pos_of_pos (h : Inv c l) (hp : (c.pos p).refs b = 1) : 0 < (c.buf b).refcnt := by
  have := le_total (Pos.refs b) c.pos p
  rw [h.count, Cache.callers]
  omega

/-- A step that leaves the list as it is, and lets no buffer become unused. -/
theorem Inv.keep (h : Inv c l) (hlinks : d.links = c.links) (hrel : d.released = c.released)
    (hclock : d.clock = c.clock)
    (hid : ∀ b, (d.buf b).dev = (c.buf b).dev ∧ (d.buf b).blockno = (c.buf b).blockno)
    (hcount : ∀ b, (d.buf b).refcnt = d.callers b + d.pins b)
    (hzero : ∀ b, (d.buf b).refcnt = 0 → (c.buf b).refcnt = 0) : Inv d l where
  linked := hlinks ▸ h.linked
  nodup := h.nodup
  all := h.all
  unique b b' h1 h2 h3 := by grind
  count := hcount
  order := by
    rw [hrel]
    exact h.order.imp fun hxy hx hy => hxy (hzero _ hx) (hzero _ hy)
  recent := by
    rw [hrel, hclock]
    exact h.recent

theorem Inv.setPins (h : Inv c l) (hl : (c.buf b).lock = some p) {r n : ℕ}
    (hr : r + c.pins b = (c.buf b).refcnt + n) :
    Inv { c.setBuf b ((c.buf b).setRef r) with pins := update c.pins b n } l := by
  have hlock y : ((c.setBuf b ((c.buf b).setRef r)).buf y).lock = (c.buf y).lock := by
    by_cases hy : y = b <;> simp [hy]
  have hcallers : ∀ y, Cache.callers
      { c.setBuf b ((c.buf b).setRef r) with pins := update c.pins b n } y = c.callers y := by
    intro y
    unfold Cache.callers
    rw [hlock]
    rfl
  have hone : 1 ≤ c.callers b := by
    unfold Cache.callers
    rw [hl]
    simp
  refine h.keep rfl rfl rfl (fun y => ?_) (fun y => ?_) fun y hy => ?_
  · by_cases hyb : y = b <;> simp [hyb]
  · rw [hcallers]
    have hc := h.count y
    obtain rfl | hyb := eq_or_ne y b
    · simp
      omega
    · simpa [hyb] using hc
  · obtain rfl | hyb := eq_or_ne y b
    · have hc := h.count y
      simp at hy
      omega
    · simpa [hyb] using hy

variable [DecidableEq P]

/-- How the callers of each buffer change when process `p` moves. -/
theorem callers_move {x : Pos} (hpos : d.pos = update c.pos p x)
    (hlock : ∀ b, (d.buf b).lock = none ↔ (c.buf b).lock = none) (b : Fin nbuf) :
    d.callers b + (c.pos p).refs b = c.callers b + x.refs b := by
  have ht := total_update (Pos.refs b) c.pos p x
  unfold Cache.callers
  rw [hpos]
  simp only [hlock b]
  omega

namespace Inv
variable (h : Inv c l)
include h

theorem bget_cached (hp : c.pos p = .idle) :
    Inv ((c.setBuf b ((c.buf b).setRef ((c.buf b).refcnt + 1))).setPos p (.acquire b)) l := by
  have hmove := callers_move (c := c)
    (d := (c.setBuf b ((c.buf b).setRef ((c.buf b).refcnt + 1))).setPos p (.acquire b)) (p := p)
    (x := .acquire b) rfl fun x => by by_cases hx : x = b <;> simp [hx]
  refine h.keep rfl rfl rfl (fun x => ?_) (fun x => ?_) fun x hx => ?_
  · by_cases hx : x = b <;> simp [hx]
  · have hm := hmove x
    have hc := h.count x
    obtain rfl | hx := eq_or_ne x b
    · simp only [hp, Pos.refs, if_true] at hm
      simp
      omega
    · simp only [hp, Pos.refs, if_neg (Ne.symm hx)] at hm
      simp [hx]
      omega
  · obtain rfl | hxb := eq_or_ne x b
    · simp at hx
    · simpa [hxb] using hx

theorem bget_recycle (hp : c.pos p = .idle) {dev blockno : ℕ}
    (hnone : c.cached dev blockno = none) (hu : c.unused = some b) :
    Inv ((c.setBuf b ((c.buf b).recycle dev blockno)).setPos p (.acquire b)) l := by
  have hmove := callers_move (c := c)
    (d := (c.setBuf b ((c.buf b).recycle dev blockno)).setPos p (.acquire b)) (p := p)
    (x := .acquire b) rfl fun x => by by_cases hx : x = b <;> simp [hx]
  have hb := (h.unused_eq_some hu).1
  have hno := h.cached_eq_none hnone
  refine ⟨h.linked, h.nodup, h.all, fun x y h1 h2 h3 => ?_, fun x => ?_, ?_, h.recent⟩
  · by_cases hx : x = b
    · by_cases hy : y = b
      · rw [hx, hy]
      · simp only [Cache.setPos_buf, Cache.setBuf_buf, hx, update_self,
          update_of_ne hy, Buf.recycle_dev, Buf.recycle_blockno] at h2 h3
        exact absurd ⟨h2, h3⟩ (hno y)
    · by_cases hy : y = b
      · simp only [Cache.setPos_buf, Cache.setBuf_buf, hy, update_self,
          update_of_ne hx, Buf.recycle_dev, Buf.recycle_blockno] at h2 h3
        exact absurd ⟨h2.symm, h3.symm⟩ (hno x)
      · simp only [Cache.setPos_buf, Cache.setBuf_buf, update_of_ne hx, update_of_ne hy] at h1 h2 h3
        exact h.unique x y h1 h2 h3
  · have hm := hmove x
    have hc := h.count x
    obtain rfl | hx := eq_or_ne x b
    · simp only [hp, Pos.refs, if_true] at hm
      simp
      omega
    · simp only [hp, Pos.refs, if_neg (Ne.symm hx)] at hm
      simp [hx]
      omega
  · refine h.order.imp fun {x y} hxy hx hy => ?_
    by_cases hxb : x = b
    · simp [hxb] at hx
    · by_cases hyb : y = b
      · simp [hyb] at hy
      · exact hxy (by simpa [hxb] using hx) (by simpa [hyb] using hy)

/-- A call that hands the reference over between its position and the sleep lock. -/
theorem hand {o : Option P} {x : Pos}
    (hrefs : ∀ y, (c.pos p).refs y + (if (c.buf y).lock = none then 0 else 1) = x.refs y +
      if ((c.setBuf b ((c.buf b).setLock o)).buf y).lock = none then 0 else 1) :
    Inv ((c.setBuf b ((c.buf b).setLock o)).setPos p x) l := by
  refine h.keep rfl rfl rfl (fun y => ?_) (fun y => ?_) fun y hy => ?_
  · by_cases hyb : y = b <;> simp [hyb]
  · have ht := total_update (Pos.refs y) c.pos p x
    have hr := hrefs y
    have hc := h.count y
    have href : (((c.setBuf b ((c.buf b).setLock o)).setPos p x).buf y).refcnt =
        (c.buf y).refcnt := by
      by_cases hyb : y = b <;> simp [hyb]
    rw [href, hc]
    unfold Cache.callers
    grind
  · obtain rfl | hyb := eq_or_ne y b
    · simpa using hy
    · simpa [hyb] using hy

theorem acquiresleep (hp : c.pos p = .acquire b) (hl : (c.buf b).lock = none) :
    Inv ((c.setBuf b ((c.buf b).setLock (some p))).setPos p .idle) l := by
  refine h.hand fun y => ?_
  rw [hp]
  obtain rfl | hy := eq_or_ne y b
  · simp [hl]
  · simp [hy, Ne.symm hy]

theorem brelse (hp : c.pos p = .idle) (hl : (c.buf b).lock = some p) :
    Inv ((c.setBuf b ((c.buf b).setLock none)).setPos p (.deref b)) l := by
  refine h.hand fun y => ?_
  rw [hp]
  obtain rfl | hy := eq_or_ne y b
  · simp [hl]
  · simp [hy, Ne.symm hy]

/-- The critical section of `brelse`: the last reference moves the buffer to the front. -/
theorem deref (hp : c.pos p = .deref b) : ∃ l', Inv ((c.deref b).setPos p .idle) l' := by
  have hpos := refcnt_pos_of_pos h (b := b) (p := p) (by simp [hp])
  have hself : ((c.deref b).buf b).refcnt = (c.buf b).refcnt - 1 := by simp
  have hother : ∀ x ≠ b, (c.deref b).buf x = c.buf x := by
    intro x hx
    simp [hx]
  have hmove := callers_move (c := c) (d := (c.deref b).setPos p .idle) (p := p) (x := .idle)
    rfl fun x => by by_cases hx : x = b <;> simp [hx]
  have hid x : ((c.deref b).buf x).dev = (c.buf x).dev ∧ ((c.deref b).buf x).blockno =
      (c.buf x).blockno := by
    by_cases hx : x = b <;> simp [hx]
  have hunique x y (h1 : 1 ≤ ((c.deref b).buf x).dev)
      (h2 : ((c.deref b).buf y).dev = ((c.deref b).buf x).dev)
      (h3 : ((c.deref b).buf y).blockno = ((c.deref b).buf x).blockno) : y = x := by grind
  have hcount x : ((c.deref b).buf x).refcnt =
      ((c.deref b).setPos p .idle).callers x + c.pins x := by
    have hm := hmove x
    have hc := h.count x
    obtain rfl | hx := eq_or_ne x b
    · rw [hself]
      simp only [hp, Pos.refs, if_true] at hm
      omega
    · rw [hother x hx]
      simp only [hp, Pos.refs, if_neg (Ne.symm hx)] at hm
      omega
  have hrecent x : (c.deref b).released x ≤ (c.deref b).clock := by
    have hr := h.recent x
    by_cases hx : x = b
    · simp [hx]
    · simp only [Cache.deref_released, Cache.deref_clock, update_of_ne hx]
      omega
  have hpair x y (hx : x ≠ b) (hy : y ≠ b)
      (hxy : (c.buf x).refcnt = 0 → (c.buf y).refcnt = 0 → c.released y ≤ c.released x) :
      ((c.deref b).buf x).refcnt = 0 → ((c.deref b).buf y).refcnt = 0 → (c.deref b).released y ≤
      (c.deref b).released x := by
    rw [hother x hx, hother y hy, Cache.deref_released, update_of_ne hx, update_of_ne hy]
    exact hxy
  by_cases hz : (c.buf b).refcnt - 1 = 0
  · obtain ⟨l1, l2, hl⟩ := append_of_mem (h.all b)
    have hlinked := h.linked
    have hnd := h.nodup
    have hord := h.order
    rw [hl] at hlinked hnd hord
    obtain ⟨hb, hnd'⟩ := nodup_cons.mp (nodup_middle.mp hnd)
    have hlinks : (c.deref b).links = (c.links.unlink b).pushFront b := if_pos hz
    refine ⟨b :: (l1 ++ l2), ?_, ?_, fun x => ?_, hunique, hcount, ?_, hrecent⟩
    · rw [Cache.setPos_links, hlinks]
      exact (hlinked.unlink hnd).pushFront hb hnd'
    · exact nodup_cons.mpr ⟨hb, hnd'⟩
    · have hx := h.all x
      rw [hl] at hx
      exact perm_middle.mem_iff.mp hx
    · refine pairwise_cons.mpr ⟨fun x _ _ _ => ?_, ?_⟩
      · have hr := hrecent x
        simpa using hr
      · have hsub : (l1 ++ l2).Sublist (l1 ++ b :: l2) :=
          (List.Sublist.refl l1).append (sublist_cons_self b l2)
        refine List.Pairwise.imp_of_mem (fun {x y} hx hy hxy => ?_) (hord.sublist hsub)
        grind
  · have hlinks : (c.deref b).links = c.links := if_neg hz
    refine ⟨l, ?_, h.nodup, h.all, hunique, hcount, ?_, hrecent⟩
    · rw [Cache.setPos_links, hlinks]
      exact h.linked
    · refine h.order.imp fun {x y} hxy hx hy => ?_
      grind

theorem step {a : Cache.Act P} (ht : c.next a = some d) : ∃ l', Inv d l' := by
  cases a with
  | bget p dev blockno =>
    rw [Cache.next, Cache.bget] at ht
    split at ht
    next hp =>
      split at ht
      next b hb =>
        cases ht
        exact ⟨l, h.bget_cached hp.1⟩
      next hnone =>
        split at ht
        next b hb =>
          cases ht
          exact ⟨l, h.bget_recycle hp.1 hnone hb⟩
        next => cases ht
    next => cases ht
  | acquiresleep p =>
    rw [Cache.next] at ht
    split at ht
    next b hp =>
      split at ht
      next hl =>
        cases ht
        exact ⟨l, h.acquiresleep hp hl⟩
      next => cases ht
    next => cases ht
  | brelse p b =>
    rw [Cache.next] at ht
    split at ht
    next hp =>
      cases ht
      exact ⟨l, h.brelse hp.1 hp.2⟩
    next => cases ht
  | deref p =>
    rw [Cache.next] at ht
    split at ht
    next b hp =>
      cases ht
      exact h.deref hp
    next => cases ht
  | bpin p b =>
    rw [Cache.next] at ht
    split at ht
    next hp =>
      cases ht
      exact ⟨l, h.setPins hp.2 (by omega)⟩
    next => cases ht
  | bunpin p b =>
    rw [Cache.next] at ht
    split at ht
    next hp =>
      cases ht
      have hpos := refcnt_pos h hp.2.1
      exact ⟨l, h.setPins hp.2.1 (by omega)⟩
    next => cases ht

end Inv

@[grind] def Reassigned (c d : Cache P) (b : Fin nbuf) : Prop :=
  ¬ ((d.buf b).dev = (c.buf b).dev ∧ (d.buf b).blockno = (c.buf b).blockno)

theorem Inv.reassigned (h : Inv c l) {a : Cache.Act P} (ht : c.next a = some d)
    (hr : Reassigned c d b) : (c.buf b).refcnt = 0 ∧
      ∀ x, (c.buf x).refcnt = 0 → c.released b ≤ c.released x := by
  have hsame : ∀ (e : Cache P) (x : Fin nbuf) (f : Buf P), e.buf = update c.buf x f →
      f.dev = (c.buf x).dev → f.blockno = (c.buf x).blockno → ¬ Reassigned c e b := by
    intro e x f he hdev hblock hc
    apply hc
    rw [he]
    grind
  cases a with
  | bget p dev blockno =>
    rw [Cache.next, Cache.bget] at ht
    split at ht
    next hp =>
      split at ht
      next x hx =>
        cases ht
        exact absurd hr (hsame _ x _ rfl rfl rfl)
      next hnone =>
        split at ht
        next x hx =>
          cases ht
          obtain rfl : b = x := by
            by_contra hb
            apply hr
            simp [hb]
          exact h.unused_eq_some hx
        next => cases ht
    next => cases ht
  | acquiresleep p =>
    rw [Cache.next] at ht
    grind
  | deref p =>
    rw [Cache.next] at ht
    split at ht
    next x hp =>
      cases ht
      exact absurd hr (hsame _ x _ rfl rfl rfl)
    next => cases ht
  | brelse p x | bpin p x | bunpin p x =>
    rw [Cache.next] at ht
    grind

/-- In every reachable state the buffers form one circular list, a block of a device has at most
one buffer, and the reference counts are exact; a step gives a buffer to another block only if it
is unused and no unused buffer was released earlier. -/
theorem bcache_structure {as : List (Cache.Act P)} (hr : run Cache.next Cache.binit as = some c) :
    (∃ l : List (Fin nbuf), Linked c.links l ∧ l.Nodup ∧ ∀ b, b ∈ l) ∧
    (∀ b b', 1 ≤ (c.buf b).dev → (c.buf b').dev = (c.buf b).dev →
      (c.buf b').blockno = (c.buf b).blockno → b' = b) ∧
    (∀ b, (c.buf b).refcnt = c.callers b + c.pins b) ∧
    ∀ a d b, c.next a = some d → Reassigned c d b → (c.buf b).refcnt = 0 ∧
      ∀ x, (c.buf x).refcnt = 0 → c.released b ≤ c.released x := by
  obtain ⟨l, h⟩ := run_invariant (I := fun c : Cache P => ∃ l, Inv c l)
    (fun _ _ _ ⟨_, h⟩ ht => h.step ht) ⟨_, inv_binit⟩ hr
  exact ⟨⟨l, h.linked, h.nodup, h.all⟩, h.unique, h.count, fun a d b ht hb => h.reassigned ht hb⟩

def twoReaders : List (Cache.Act (Fin 2)) :=
  [.bget 0 1 5, .bget 1 1 5, .acquiresleep 0, .bpin 0 0, .brelse 0 0, .deref 0, .acquiresleep 1,
    .bget 0 1 6]

theorem bcache_structure_twoReaders : ∃ c, run Cache.next Cache.binit twoReaders = some c ∧
    (c.buf 0).refcnt = 2 ∧ (c.buf 1).blockno = 6 ∧
    (∃ l : List (Fin nbuf), Linked c.links l ∧ l.Nodup ∧ ∀ b, b ∈ l) ∧
    ∀ b, (c.buf b).refcnt = c.callers b + c.pins b := by
  have h : ∃ c ∈ run Cache.next Cache.binit twoReaders,
      (c.buf 0).refcnt = 2 ∧ (c.buf 1).blockno = 6 := by decide +kernel
  obtain ⟨c, hc, href, hblock⟩ := h
  have hs := bcache_structure hc
  exact ⟨c, hc, href, hblock, hs.1, hs.2.2.1⟩

section Spells
variable {P : Type} {a a' : Bio.Cache P} {c : Cache P} {p : P}

def Pos.ofIo : Io → Pos
  | .idle | .fill _ => .idle
  | .acquire b => .acquire b
  | .deref b => .deref b

/-- The pointers of `c` spell the list of `a`, and what both models have of the buffers and of the
processes is the same. -/
structure Spells (a : Bio.Cache P) (c : Cache P) : Prop where
  linked : Linked c.links a.lru
  nodup : a.lru.Nodup
  all : ∀ b, b ∈ a.lru
  buf : ∀ b, (c.buf b).dev = (a.buf b).dev ∧ (c.buf b).blockno = (a.buf b).blockno ∧
    (c.buf b).refcnt = (a.buf b).refcnt ∧ (c.buf b).lock = (a.buf b).lock
  pos : ∀ p, c.pos p = .ofIo (a.io p)

theorem spells_binit (d : Disk) : Spells (Bio.Cache.binit d : Bio.Cache P) Cache.binit where
  linked := linked_binit
  nodup := nodup_reverse.mpr (nodup_finRange nbuf)
  all b := mem_reverse.mpr (mem_finRange b)
  buf _ := ⟨rfl, rfl, rfl, rfl⟩
  pos _ := rfl

namespace Spells

theorem length_le (h : Spells a c) : a.lru.length ≤ nbuf := by
  have := h.nodup.length_le_card
  rwa [Fintype.card_fin] at this

theorem cached_eq (h : Spells a c) (dev blockno : ℕ) :
    c.cached dev blockno = a.findCached dev blockno := by
  rw [Cache.cached, scan_next _ h.linked h.length_le, Bio.Cache.findCached]
  simp only [(h.buf _).1, (h.buf _).2.1]

theorem unused_eq (h : Spells a c) : c.unused = a.findUnused := by
  rw [Cache.unused, scan_prev _ h.linked h.length_le, Bio.Cache.findUnused]
  simp only [(h.buf _).2.2.1]

/-- The list with a buffer moved to its head. -/
theorem moved (h : Spells a c) (b : Fin nbuf) :
    Linked ((c.links.unlink b).pushFront b) (b :: a.lru.erase b) ∧
      (b :: a.lru.erase b).Nodup ∧ ∀ x, x ∈ b :: a.lru.erase b := by
  obtain ⟨l₁, l₂, hl⟩ := append_of_mem (h.all b)
  have hlinked := h.linked
  have hnd := h.nodup
  rw [hl] at hlinked hnd
  obtain ⟨hb, hnd'⟩ := nodup_cons.mp (nodup_middle.mp hnd)
  have herase : a.lru.erase b = l₁ ++ l₂ := by
    rw [hl, erase_append_right _ fun hm => hb (mem_append_left l₂ hm), erase_cons_head]
  rw [herase]
  refine ⟨(hlinked.unlink hnd).pushFront hb hnd', nodup_cons.mpr ⟨hb, hnd'⟩, fun x => ?_⟩
  have hx := h.all x
  rw [hl] at hx
  exact perm_middle.mem_iff.mp hx

variable [DecidableEq P]

/-- A step changes one buffer and one process in both models alike. -/
theorem put (h : Spells a c) {b : Fin nbuf} {x : Bio.Buf P} {y : Buf P} {v : Io}
    (hdev : y.dev = x.dev) (hno : y.blockno = x.blockno) (href : y.refcnt = x.refcnt)
    (hlock : y.lock = x.lock) : Spells (a.put b x p v) ((c.setBuf b y).setPos p (.ofIo v)) where
  linked := h.linked
  nodup := h.nodup
  all := h.all
  buf i := by
    simp only [Bio.Cache.put, Cache.setPos_buf, Cache.setBuf_buf]
    obtain rfl | hi := eq_or_ne i b
    · rw [update_self, update_self]
      exact ⟨hdev, hno, href, hlock⟩
    · rw [update_of_ne hi, update_of_ne hi]
      exact h.buf i
  pos q := by
    simp only [Bio.Cache.put, Cache.setPos_pos]
    obtain rfl | hq := eq_or_ne q p
    · rw [update_self, update_self]
    · rw [update_of_ne hq, update_of_ne hq]
      exact h.pos q

/-- `bget` takes the same buffer in both models. -/
theorem bget (h : Spells a c) (dev blockno : ℕ) : match a.bget p dev blockno with
    | none => c.bget p dev blockno = none
    | some (b, a') => ∃ c', c.bget p dev blockno = some c' ∧ c'.pos p = .acquire b ∧
        Spells a' c' := by
  unfold Cache.bget Bio.Cache.bget
  rw [h.cached_eq, h.unused_eq]
  cases a.findCached dev blockno with
  | some b =>
    obtain ⟨hdev, hno, href, hlock⟩ := h.buf b
    exact ⟨_, rfl, update_self .., h.put hdev hno (congrArg (· + 1) href) hlock⟩
  | none =>
    cases a.findUnused with
    | some b => exact ⟨_, rfl, update_self .., h.put rfl rfl rfl (h.buf b).2.2.2⟩
    | none => rfl

theorem acquiresleep (h : Spells a c) (ha : a.acquiresleep p = some a') :
    ∃ c', c.next (.acquiresleep p) = some c' ∧ Spells a' c' := by
  have hpos := h.pos p
  unfold Bio.Cache.acquiresleep at ha
  split at ha
  next b hio =>
    obtain ⟨hdev, hno, href, hlock⟩ := h.buf b
    rw [hio, Pos.ofIo] at hpos
    rw [← hlock] at ha
    split at ha
    next hfree =>
      cases ha
      refine ⟨(c.setBuf b ((c.buf b).setLock (some p))).setPos p .idle, ?_,
        h.put hdev hno href rfl⟩
      simp only [Cache.next, hpos, if_pos hfree]
    · cases ha
  · cases ha

theorem releasesleep (h : Spells a c) (b : Fin nbuf) : Spells (a.releasesleep p b)
    ((c.setBuf b ((c.buf b).setLock none)).setPos p (.deref b)) := by
  obtain ⟨hdev, hno, href, _⟩ := h.buf b
  exact h.put hdev hno href rfl

/-- `brelse` moves the same buffer to the head of the list. -/
theorem deref (h : Spells a c) (ha : a.deref p = some a') :
    ∃ c', c.next (.deref p) = some c' ∧ Spells a' c' := by
  have hpos := h.pos p
  unfold Bio.Cache.deref at ha
  split at ha
  next b hio =>
    cases ha
    obtain ⟨hdev, hno, href, hlock⟩ := h.buf b
    rw [hio, Pos.ofIo] at hpos
    have hmoved := h.moved b
    have hput : Spells (a.put b (a.buf b).decref p .idle)
        ((c.setBuf b ((c.buf b).setRef ((c.buf b).refcnt - 1))).setPos p .idle) :=
      h.put hdev hno (congrArg (· - 1) href) hlock
    refine ⟨(c.deref b).setPos p .idle, by simp only [Cache.next, hpos], ?_, ?_, ?_, hput.buf,
      hput.pos⟩ <;>
      simp only [Cache.setPos_links, Cache.deref_links]
    · rw [href]
      split
      · exact hmoved.1
      · exact h.linked
    · split
      · exact hmoved.2.1
      · exact h.nodup
    · split
      · exact hmoved.2.2
      · exact h.all
  · cases ha

end Spells

end Spells

end Xv6.Bio.Lru
