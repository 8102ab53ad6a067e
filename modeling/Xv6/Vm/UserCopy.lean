import Xv6.Vm.Copy

/-! `copyout`, `copyin` and `copyinstr`, byte by byte: a user address can be read or written when
its page is mapped with the right permissions, and a copy reaches these bytes and no others. -/
namespace Xv6.Vm
open Hoare Radix List
variable {E : Panic → Prop} {m t u : Mem} {root n : ℕ} {x y va dstva len k : ℕ} {src : List UInt8}

namespace Mem

def userByte (m : Mem) (root va : ℕ) : UInt8 := m.page (m.frame root va) (va % pgsize)

def userBytes (m : Mem) (root va n : ℕ) : List UInt8 :=
  (List.range n).map fun k => m.userByte root (va + k)

/-- The page of `va` lies below `MAXVA` and is mapped with `PTE_V` and `PTE_U`. -/
def Readable (m : Mem) (root va : ℕ) : Prop :=
  va < maxva ∧ m.lookup root va &&& pteV ≠ 0 ∧ m.lookup root va &&& pteU ≠ 0

/-- The page of `va` is mapped with `PTE_W` as well. -/
def Writable (m : Mem) (root va : ℕ) : Prop :=
  m.Readable root va ∧ m.lookup root va &&& pteW ≠ 0

instance (m : Mem) (root va : ℕ) : Decidable (m.Readable root va) :=
  inferInstanceAs (Decidable (_ ∧ _))

instance (m : Mem) (root va : ℕ) : Decidable (m.Writable root va) :=
  inferInstanceAs (Decidable (_ ∧ _))

/-- A page that the user can write is mapped at one place, and it is no page of the table. -/
structure Unaliased (m : Mem) (root : ℕ) : Prop where
  inj : ∀ x y, m.Writable root x → m.Readable root y → m.frame root x = m.frame root y →
    x / pgsize = y / pgsize
  table : ∀ x, m.Writable root x → m.frame root x ∉ m.tables root

theorem Unaliased.eq (h : m.Unaliased root) (hx : m.Writable root x) (hy : m.Readable root y)
    (hf : m.frame root x = m.frame root y) (ho : x % pgsize = y % pgsize) : x = y := by
  rw [← Nat.div_add_mod x pgsize, h.inj x y hx hy hf, ho, Nat.div_add_mod]

end Mem

section
variable (h : x / pgsize = y / pgsize)
include h

private theorem lt_maxva_of_div (hy : y < maxva) : x < maxva := by
  simp only [pgsize, maxva] at h hy ⊢
  omega

theorem readable_page (hy : m.Readable root y) : m.Readable root x := by
  have hx := lt_maxva_of_div h hy.1
  have hl : m.lookup root x = m.lookup root y := lookup_page (lt_sv39 hy.1) (lt_sv39 hx) h
  rw [Mem.Readable, hl]
  exact ⟨hx, hy.2⟩

theorem writable_page (hy : m.Writable root y) : m.Writable root x := by
  have hx := lt_maxva_of_div h hy.1.1
  have hl : m.lookup root x = m.lookup root y := lookup_page (lt_sv39 hy.1.1) (lt_sv39 hx) h
  rw [Mem.Writable, hl]
  exact ⟨readable_page h hy.1, hy.2⟩

theorem frame_page (hy : y < maxva) : m.frame root x = m.frame root y := by
  rw [Mem.frame, Mem.frame, lookup_page (lt_sv39 hy) (lt_sv39 (lt_maxva_of_div h hy)) h]

end

theorem Space.readable (h : Space m root n) (hx : m.Readable root x) :
    x / pgsize < n ∧ m.frame root x = m.frame root (0 + x / pgsize * pgsize) := by
  refine ⟨?_, ?_⟩
  · by_contra hge
    rcases h.above x (lt_sv39 hx.1) (not_lt.mp hge) with hz | hz
    · exact hx.2.1 hz
    · exact hx.2.2 hz
  · rw [Nat.zero_add]
    exact (frame_page (Nat.mul_div_cancel _ (by decide)) hx.1).symm

theorem Space.unaliased (h : Space m root n) : m.Unaliased root := by
  refine ⟨fun x y hx hy heq => ?_, fun x hx => ?_⟩
  · obtain ⟨hxn, hxf⟩ := h.readable hx.1
    obtain ⟨hyn, hyf⟩ := h.readable hy
    rw [hxf, hyf] at heq
    rcases lt_trichotomy (x / pgsize) (y / pgsize) with hlt | heq' | hlt
    · exact absurd heq (h.frames.inj _ _ hlt hyn)
    · exact heq'
    · exact absurd heq.symm (h.frames.inj _ _ hlt hxn)
  · obtain ⟨hxn, hxf⟩ := h.readable hx.1
    rw [hxf]
    exact h.frames.tables _ hxn

theorem Space.frame_ne_zero (h : Space m root n) (hk : 0 < m.kend)
    (hx : m.Readable root x) : m.frame root x ≠ 0 := by
  obtain ⟨hn, hf⟩ := h.readable hx
  have hr := (h.frames.range _ hn).1
  rw [hf]
  omega

theorem lookup_eq_zero (h : leaf child m.pte (path va) 2 root = none) : m.lookup root va = 0 := by
  rw [Mem.lookup, Radix.lookup, h]
  rfl

theorem pgrounddown_div (va : ℕ) : pgrounddown va / pgsize = va / pgsize :=
  Nat.mul_div_cancel _ (by decide)

theorem sub_pgrounddown (va : ℕ) : va - pgrounddown va = va % pgsize := by
  simp only [pgrounddown, pgsize]
  omega

private theorem pgrounddown_lt : pgrounddown va < maxva ↔ va < maxva :=
  ⟨lt_maxva_of_div (pgrounddown_div va).symm, lt_maxva_of_div (pgrounddown_div va)⟩

theorem next_page (h : va < maxva) :
    u64 (pgrounddown va + pgsize) = va + (pgsize - va % pgsize) := by
  simp only [u64, pgrounddown, pgsize, maxva] at h ⊢
  omega

theorem walkaddr_spec (va : ℕ) : wp (walkaddr root va)
    (fun r t => t = m ∧ r = if m.Readable root va then m.frame root va else 0) E m := by
  unfold walkaddr
  split
  next hge => exact ⟨rfl, (if_neg fun h => absurd h.1 (not_lt.mpr hge)).symm⟩
  next hlt =>
    have hva := not_le.mp hlt
    refine wp_seq (walk_false hva) ?_
    rintro r t ⟨rfl, rfl⟩
    cases hl : leaf child t.pte (path va) 2 root with
    | none =>
      refine ⟨rfl, (if_neg fun h => h.2.1 ?_).symm⟩
      rw [lookup_eq_zero hl]
      rfl
    | some b =>
      simp only [Option.map_some, wp_bind, wp_get]
      rw [← lookup_of_leaf hl]
      split
      next hv => exact ⟨rfl, (if_neg fun h => h.2.1 hv).symm⟩
      next hv =>
        split
        next hu => exact ⟨rfl, (if_neg fun h => h.2.2 hu).symm⟩
        next hu => exact ⟨rfl, (if_pos ⟨hva, hv, hu⟩).symm⟩

/-- What `walkaddr` finds for the page of `va`, where no page of the user is at address zero. -/
theorem walkaddr_pgrounddown (hz : ∀ x, m.Readable root x → m.frame root x ≠ 0) (va : ℕ) :
    wp (walkaddr root (pgrounddown va)) (fun r t => t = m ∧
      (r ≠ 0 ↔ m.Readable root va) ∧ (m.Readable root va → r = m.frame root va)) E m := by
  refine wp_post (walkaddr_spec _) ?_
  rintro r t ⟨rfl, rfl⟩
  refine ⟨rfl, ?_⟩
  have hiff : t.Readable root (pgrounddown va) ↔ t.Readable root va :=
    ⟨readable_page (pgrounddown_div va).symm, readable_page (pgrounddown_div va)⟩
  by_cases hr : t.Readable root va
  · rw [if_pos (hiff.mpr hr), frame_page (pgrounddown_div va) hr.1]
    exact ⟨⟨fun _ => hr, fun _ => hz va hr⟩, fun _ => rfl⟩
  · rw [if_neg fun h => hr (hiff.mp h)]
    exact ⟨⟨fun h => absurd rfl h, fun h => absurd h hr⟩, fun h => absurd h hr⟩

/-- Only bytes from user address `lo` up to `hi` have changed, and of them those that the user can
write. -/
structure Within (root lo hi : ℕ) (m t : Mem) : Prop where
  kernel : SameKernel m t
  free : t.free = m.free
  page : ∀ b o, t.page b o ≠ m.page b o → ∃ x, (lo ≤ x ∧ x < hi) ∧ m.Writable root x ∧
    b = m.frame root x ∧ o = x % pgsize

namespace Within
variable {lo hi : ℕ}

theorem refl (root lo hi : ℕ) (m : Mem) : Within root lo hi m m :=
  ⟨⟨rfl, rfl⟩, rfl, fun _ _ hne => absurd rfl hne⟩

variable (h : Within root lo hi m t) (ha : m.Unaliased root)
include h ha

theorem tables {b : ℕ} (hb : b ∈ m.tables root) : t.page b = m.page b := by
  funext o
  by_contra hne
  obtain ⟨x, _, hw, rfl, _⟩ := h.page b o hne
  exact ha.table _ hw hb

theorem lookup (x : ℕ) : t.lookup root x = m.lookup root x :=
  lookup_of_same (same_of_pages fun _ hb => h.tables ha hb) x

theorem readable : t.Readable root x ↔ m.Readable root x := by
  rw [Mem.Readable, h.lookup ha, Mem.Readable]

theorem writable : t.Writable root x ↔ m.Writable root x := by
  rw [Mem.Writable, h.readable ha, h.lookup ha, Mem.Writable]

theorem frame (x : ℕ) : t.frame root x = m.frame root x := by
  rw [Mem.frame, h.lookup ha, Mem.frame]

theorem unaliased : t.Unaliased root := by
  have htab : t.tables root = m.tables root := (same_of_pages fun _ hb => h.tables ha hb).nodes
  refine ⟨fun x y hx hy heq => ?_, fun x hx => ?_⟩
  · rw [h.frame ha, h.frame ha] at heq
    exact ha.inj x y ((h.writable ha).mp hx) ((h.readable ha).mp hy) heq
  · rw [h.frame ha, htab]
    exact ha.table x ((h.writable ha).mp hx)

end Within

/-- Bytes of `src` have been stored at user address `dstva` and after: nothing else has changed, and
all of them are there if the user can write to all these addresses. -/
structure Stored (root dstva : ℕ) (src : List UInt8) (m t : Mem) : Prop where
  kernel : SameKernel m t
  free : t.free = m.free
  page : ∀ b o, t.page b o ≠ m.page b o → ∃ k, k < src.length ∧ m.Writable root (dstva + k) ∧
    b = m.frame root (dstva + k) ∧ o = (dstva + k) % pgsize
  byte : (∀ k, k < src.length → m.Writable root (dstva + k)) → ∀ k (hk : k < src.length),
    t.page (m.frame root (dstva + k)) ((dstva + k) % pgsize) = src.get ⟨k, hk⟩

namespace Stored

section
variable (h : Stored root dstva src m t)
include h

theorem within : Within root dstva (dstva + src.length) m t := by
  refine ⟨h.kernel, h.free, fun b o hne => ?_⟩
  obtain ⟨k, hk, hpage⟩ := h.page b o hne
  exact ⟨dstva + k, ⟨Nat.le_add_right dstva k, by omega⟩, hpage⟩

theorem lookup (ha : m.Unaliased root) (x : ℕ) :
    t.lookup root x = m.lookup root x := h.within.lookup ha x

theorem readable (ha : m.Unaliased root) :
    t.Readable root x ↔ m.Readable root x := h.within.readable ha

theorem writable (ha : m.Unaliased root) :
    t.Writable root x ↔ m.Writable root x := h.within.writable ha

theorem frame (ha : m.Unaliased root) (x : ℕ) :
    t.frame root x = m.frame root x := h.within.frame ha x

theorem unaliased (ha : m.Unaliased root) : t.Unaliased root :=
  h.within.unaliased ha

end

theorem nil (root dstva : ℕ) (m : Mem) : Stored root dstva [] m m :=
  ⟨⟨rfl, rfl⟩, rfl, fun _ _ h => absurd rfl h, fun _ k hk => absurd hk (Nat.not_lt_zero k)⟩

theorem none (hne : src ≠ []) (h : ¬ m.Writable root dstva) : Stored root dstva src m m := by
  refine ⟨⟨rfl, rfl⟩, rfl, fun _ _ hp => absurd rfl hp, fun hall => ?_⟩
  exact absurd (hall 0 (length_pos_iff.mpr hne)) h

theorem memmove (hw : m.Writable root dstva) (hlen : src.length ≤ pgsize - dstva % pgsize) :
    Stored root dstva src m (m.memmove (m.frame root dstva) (dstva % pgsize) src) := by
  have hdiv : ∀ k < src.length, (dstva + k) / pgsize = dstva / pgsize ∧
      (dstva + k) % pgsize = dstva % pgsize + k := by
    intro k hk
    simp only [pgsize] at hlen ⊢
    omega
  refine ⟨⟨rfl, rfl⟩, rfl, fun b o hne => ?_, fun _ k hk => ?_⟩
  · obtain rfl : b = m.frame root dstva := by
      by_contra hb
      simp [hb] at hne
    simp only [Mem.memmove_page, Function.update_self] at hne
    split at hne
    next ho =>
      have hk : o - dstva % pgsize < src.length := by
        by_contra hge
        rw [List.getElem?_eq_none (not_lt.mp hge)] at hne
        exact hne rfl
      obtain ⟨h1, h2⟩ := hdiv _ hk
      refine ⟨_, hk, writable_page h1 hw, (frame_page h1 hw.1.1).symm, ?_⟩
      omega
    · exact absurd rfl hne
  · obtain ⟨h1, h2⟩ := hdiv k hk
    rw [frame_page h1 hw.1.1, h2]
    simp only [Mem.memmove_page, Function.update_self]
    rw [if_pos (Nat.le_add_right _ _), Nat.add_sub_cancel_left, List.getElem?_eq_getElem hk]
    rfl

theorem nil_congr {dstva' : ℕ} (h : Stored root dstva [] m t) : Stored root dstva' [] m t := by
  refine ⟨h.kernel, h.free, fun b o hne => ?_, fun _ k hk => absurd hk (Nat.not_lt_zero k)⟩
  obtain ⟨k, hk, _⟩ := h.page b o hne
  exact absurd hk (Nat.not_lt_zero k)

theorem append {xs ys : List UInt8} (ha : m.Unaliased root) (h : Stored root dstva xs m u)
    (h' : Stored root (dstva + xs.length) ys u t)
    (hw : ∀ k < xs.length, m.Writable root (dstva + k)) : Stored root dstva (xs ++ ys) m t := by
  refine ⟨h.kernel.trans h'.kernel, h'.free.trans h.free, fun b o hne => ?_, fun hall k hk => ?_⟩
  · by_cases hu : u.page b o = m.page b o
    · rw [← hu] at hne
      obtain ⟨k, hk, hwk, hb, ho⟩ := h'.page b o hne
      refine ⟨xs.length + k, by rw [length_append]; omega, ?_⟩
      rw [← Nat.add_assoc]
      exact ⟨(h.writable ha).mp hwk, hb.trans (h.frame ha _), ho⟩
    · obtain ⟨k, hk, hrest⟩ := h.page b o hu
      exact ⟨k, by rw [length_append]; omega, hrest⟩
  · have hys : ∀ j < ys.length, u.Writable root (dstva + xs.length + j) := by
      intro j hj
      rw [h.writable ha, Nat.add_assoc]
      exact hall _ (by rw [length_append]; omega)
    by_cases hlt : k < xs.length
    · have hkeep : t.page (m.frame root (dstva + k)) ((dstva + k) % pgsize) =
          u.page (m.frame root (dstva + k)) ((dstva + k) % pgsize) := by
        by_contra hne
        obtain ⟨j, hj, hwj, hb, ho⟩ := h'.page _ _ hne
        rw [h.frame ha] at hb
        have heq := ha.eq (hw k hlt) ((h.readable ha).mp hwj.1) hb ho
        omega
      rw [hkeep, h.byte hw k hlt]
      simp [getElem_append_left hlt]
    · obtain ⟨j, rfl⟩ := Nat.exists_eq_add_of_le (not_lt.mp hlt)
      rw [length_append] at hk
      have hb := h'.byte hys j (by omega)
      rw [h.frame ha, Nat.add_assoc] at hb
      rw [hb]
      simp [getElem_append_right]

end Stored

def firstPart (va len : ℕ) : ℕ := min (pgsize - va % pgsize) len

private theorem firstPart_pos (h : 0 < len) : 0 < firstPart va len := by
  have hmod := Nat.mod_lt va (show 0 < pgsize by decide)
  unfold firstPart
  omega

private theorem firstPart_le (va len : ℕ) : firstPart va len ≤ len := Nat.min_le_right _ _

private theorem firstPart_div (h : k < firstPart va len) :
    (va + k) / pgsize = va / pgsize ∧ (va + k) % pgsize = va % pgsize + k := by
  simp only [firstPart, pgsize] at h ⊢
  omega

/-- The second round starts where the first one has stopped, if there is one. -/
private theorem firstPart_next (h : firstPart va len < len) :
    va + (pgsize - va % pgsize) = va + firstPart va len := by
  unfold firstPart at h ⊢
  omega

/-- A property of the pages holds of all bytes of a copy if it does of the first byte and of all
those that are left after the first round. -/
theorem forall_firstPart {P : ℕ → Prop}
    (hP : ∀ x y, x / pgsize = y / pgsize → P y → P x) (h : P va) :
    (∀ j < len - firstPart va len, P (va + (pgsize - va % pgsize) + j)) ↔
      ∀ k < len, P (va + k) := by
  refine ⟨fun hall k hk => ?_, fun hall j hj => ?_⟩
  · by_cases hlt : k < firstPart va len
    · exact hP _ _ (firstPart_div hlt).1 h
    · have hj := hall (k - firstPart va len) (by omega)
      rw [firstPart_next (show firstPart va len < len by omega), Nat.add_assoc,
        Nat.add_sub_cancel' (not_lt.mp hlt)] at hj
      exact hj
  · rw [firstPart_next (show firstPart va len < len by omega), Nat.add_assoc]
    exact hall _ (by omega)

theorem Stored.round (ha : m.Unaliased root) (hw : m.Writable root dstva)
    (h : Stored root dstva (src.take (firstPart dstva src.length)) m u)
    (h' : Stored root (dstva + (pgsize - dstva % pgsize))
      (src.drop (firstPart dstva src.length)) u t) : Stored root dstva src m t := by
  have hlen : (src.take (firstPart dstva src.length)).length = firstPart dstva src.length :=
    length_take_of_le (firstPart_le _ _)
  have hrest : Stored root (dstva + (src.take (firstPart dstva src.length)).length)
      (src.drop (firstPart dstva src.length)) u t := by
    rw [hlen]
    by_cases hlt : firstPart dstva src.length < src.length
    · rwa [← firstPart_next hlt]
    · rw [drop_of_length_le (not_lt.mp hlt)] at h' ⊢
      exact h'.nil_congr
  have happ := Stored.append ha h hrest fun k hk =>
    writable_page (firstPart_div (hlen ▸ hk)).1 hw
  rwa [take_append_drop] at happ

theorem copyoutLoop_stored (fuel : ℕ) : ∀ (m : Mem) (dstva : ℕ) (src : List UInt8),
    src.length ≤ fuel → m.Unaliased root → wp (copyoutLoop root fuel dstva src) (fun r t =>
      Stored root dstva src m t ∧
      (r = true ↔ ∀ k < src.length, m.Writable root (dstva + k))) E m := by
  induction fuel with
  | zero =>
    intro m dstva src hlen _
    obtain rfl : src = [] := length_eq_zero_iff.mp (Nat.le_zero.mp hlen)
    exact ⟨.nil root dstva m, by simp⟩
  | succ fuel ih =>
    intro m dstva src hlen ha
    unfold copyoutLoop
    split
    next hnil =>
      subst hnil
      exact ⟨.nil root dstva m, by simp⟩
    next hne =>
      have hstop (hw : ¬ m.Writable root dstva) : Stored root dstva src m m ∧
          (false = true ↔ ∀ k < src.length, m.Writable root (dstva + k)) := by
        refine ⟨.none hne hw, fun h => (by cases h), fun hall => ?_⟩
        exact absurd (hall 0 (length_pos_iff.mpr hne)) hw
      have hpg : m.Writable root dstva ↔ m.Writable root (pgrounddown dstva) :=
        ⟨writable_page (pgrounddown_div dstva), writable_page (pgrounddown_div dstva).symm⟩
      dsimp only
      split
      next hge => exact hstop fun hw => absurd (pgrounddown_lt.mpr hw.1.1) (not_lt.mpr hge)
      next hlt =>
        have hva := not_le.mp hlt
        refine wp_seq (walk_false hva) ?_
        rintro r t ⟨rfl, rfl⟩
        cases hl : leaf child t.pte (path (pgrounddown dstva)) 2 root with
        | none =>
          refine hstop fun hw => (hpg.mp hw).1.2.1 ?_
          rw [lookup_eq_zero hl]
          rfl
        | some b =>
          simp only [Option.map_some, wp_bind, wp_get]
          rw [← lookup_of_leaf hl]
          split
          next hperm =>
            refine hstop fun hw => ?_
            have hw' := hpg.mp hw
            rcases hperm with h | h | h
            · exact hw'.1.2.1 h
            · exact hw'.1.2.2 h
            · exact hw'.2 h
          next hperm =>
            simp only [not_or] at hperm
            have hw : t.Writable root dstva := hpg.mpr ⟨⟨hva, hperm.1, hperm.2.1⟩, hperm.2.2⟩
            simp only [wp_bind, wp_modify]
            rw [sub_pgrounddown, next_page (pgrounddown_lt.mp hva), ← Mem.frame,
              frame_page (pgrounddown_div dstva) hw.1.1]
            have hfirst : Stored root dstva (src.take (firstPart dstva src.length)) t _ :=
              .memmove hw (by
                rw [length_take_of_le (firstPart_le _ _)]
                exact Nat.min_le_left _ _)
            refine wp_post (ih _ _ _ ?_ (hfirst.unaliased ha)) ?_
            · have hpos : 0 < firstPart dstva src.length :=
                firstPart_pos (length_pos_iff.mpr hne)
              rw [List.length_drop]
              unfold firstPart at hpos
              omega
            rintro r u ⟨hrest, hr⟩
            refine ⟨hfirst.round ha hw hrest, hr.trans ?_⟩
            rw [List.length_drop]
            refine (forall₂_congr fun _ _ => hfirst.writable ha).trans ?_
            exact forall_firstPart (fun _ _ => writable_page) hw

/-- After a copy that has stored all bytes, the user reads them and otherwise what was there. -/
theorem Stored.userByte (h : Stored root dstva src m t)
    (ha : m.Unaliased root) (hw : ∀ k < src.length, m.Writable root (dstva + k))
    (hx : m.Readable root x) : t.userByte root x =
      if dstva ≤ x ∧ x < dstva + src.length then src.getD (x - dstva) 0 else m.userByte root x := by
  unfold Mem.userByte
  rw [h.frame ha]
  split
  next hin =>
    obtain ⟨k, rfl⟩ := Nat.exists_eq_add_of_le hin.1
    have hk : k < src.length := by omega
    rw [h.byte hw k hk, Nat.add_sub_cancel_left, getD_eq_getElem _ _ hk]
    rfl
  next hout =>
    by_contra hne
    obtain ⟨k, hk, hwk, hb, ho⟩ := h.page _ _ hne
    have heq := ha.eq hwk hx hb.symm ho.symm
    omega

theorem userBytes_zero (va : ℕ) : m.userBytes root va 0 = [] := rfl

theorem userBytes_succ (va n : ℕ) :
    m.userBytes root va (n + 1) = m.userByte root va :: m.userBytes root (va + 1) n := by
  simp [Mem.userBytes, range_succ_eq_map, Nat.add_right_comm, Nat.add_assoc]

theorem userBytes_add (va n k : ℕ) : m.userBytes root va (n + k) =
    m.userBytes root va n ++ m.userBytes root (va + n) k := by
  simp [Mem.userBytes, range_add, Nat.add_assoc]

theorem length_userBytes (va n : ℕ) : (m.userBytes root va n).length = n := by
  simp [Mem.userBytes]

theorem bytes_firstPart (h : m.Readable root va) :
    m.bytes (m.frame root va) (va % pgsize) (firstPart va len) =
      m.userBytes root va (firstPart va len) := by
  unfold Mem.bytes Mem.userBytes
  refine map_congr_left fun k hk => ?_
  obtain ⟨h1, h2⟩ := firstPart_div (mem_range.mp hk)
  rw [Mem.userByte, frame_page h1 h.1, h2]

theorem userBytes_round (va len : ℕ) : m.userBytes root va len =
    m.userBytes root va (firstPart va len) ++
      m.userBytes root (va + (pgsize - va % pgsize)) (len - firstPart va len) := by
  have hle := firstPart_le va len
  rcases hle.eq_or_lt with heq | hlt
  · rw [heq, Nat.sub_self, userBytes_zero, append_nil]
  · rw [firstPart_next hlt, ← userBytes_add, Nat.add_sub_cancel' hle]

theorem copyinLoop_spec (hz : ∀ x, m.Readable root x → m.frame root x ≠ 0) (fuel : ℕ) :
    ∀ (srcva len : ℕ), len ≤ fuel → wp (copyinLoop root fuel srcva len) (fun r t => t = m ∧
      r = if ∀ k < len, m.Readable root (srcva + k) then
        some (m.userBytes root srcva len) else none) E m := by
  induction fuel with
  | zero =>
    intro srcva len hlen
    obtain rfl := Nat.le_zero.mp hlen
    exact ⟨rfl, (if_pos fun k hk => absurd hk (Nat.not_lt_zero k)).symm⟩
  | succ fuel ih =>
    intro srcva len hlen
    unfold copyinLoop
    split
    next h0 =>
      subst h0
      exact ⟨rfl, (if_pos fun k hk => absurd hk (Nat.not_lt_zero k)).symm⟩
    next hne =>
      dsimp only
      refine wp_seq (walkaddr_pgrounddown hz srcva) ?_
      rintro r t ⟨rfl, hr, hframe⟩
      split
      next hr0 =>
        refine ⟨rfl, (if_neg fun hall => ?_).symm⟩
        exact hr.mpr (hall 0 (Nat.pos_of_ne_zero hne)) hr0
      next hr0 =>
        have hread := hr.mp hr0
        have hpos : 0 < firstPart srcva len := firstPart_pos (Nat.pos_of_ne_zero hne)
        rw [wp_bind, wp_get, wp_bind, sub_pgrounddown, next_page hread.1, hframe hread]
        change wp (copyinLoop root fuel _ (len - firstPart srcva len)) _ E t
        refine wp_post (ih _ _ ?_) ?_
        · omega
        rintro r' t' ⟨rfl, rfl⟩
        refine ⟨rfl, ?_⟩
        have hiff : (∀ j, j < len - firstPart srcva len →
            t'.Readable root (srcva + (pgsize - srcva % pgsize) + j)) ↔
            ∀ k < len, t'.Readable root (srcva + k) :=
          forall_firstPart (fun _ _ => readable_page) hread
        by_cases hall : ∀ k < len, t'.Readable root (srcva + k)
        · rw [if_pos (hiff.mpr hall), if_pos hall, Option.map_some, userBytes_round srcva len,
            ← bytes_firstPart hread]
          rfl
        · rw [if_neg fun h => hall (hiff.mp h), if_neg hall]
          rfl

theorem Stored.userBytes (h : Stored root dstva src m t)
    (ha : m.Unaliased root) (hw : ∀ k < src.length, m.Writable root (dstva + k)) :
    t.userBytes root dstva src.length = src := by
  refine ext_getElem (length_userBytes _ _) fun k _ hk => ?_
  simp only [Mem.userBytes, getElem_map, getElem_range]
  rw [h.userByte ha hw (hw k hk).1, if_pos ⟨by omega, by omega⟩, Nat.add_sub_cancel_left,
    getD_eq_getElem _ _ hk]

/-- `copyout` and `copyin` succeed exactly if the user can write, or read, every byte of the range.
`copyout` changes bytes of the range that the user can write and no others; when it succeeds they
are the bytes of `src`, which `copyin` then returns. -/
theorem user_copies_check_pages (ha : m.Unaliased root)
    (hz : ∀ x, m.Readable root x → m.frame root x ≠ 0) :
    (∀ (dstva : ℕ) (src : List UInt8), ∃ ok t, copyout root dstva src m = .ok (ok, t) ∧
      (ok = true ↔ ∀ k, k < src.length → m.Writable root (dstva + k)) ∧
      (∀ x, t.lookup root x = m.lookup root x) ∧
      (∀ b o, t.page b o ≠ m.page b o → ∃ k, k < src.length ∧ m.Writable root (dstva + k) ∧
        b = m.frame root (dstva + k) ∧ o = (dstva + k) % pgsize) ∧
      (ok = true → (∀ x, m.Readable root x → t.userByte root x =
          if dstva ≤ x ∧ x < dstva + src.length then src.getD (x - dstva) 0
          else m.userByte root x) ∧
        copyin root dstva src.length t = .ok (some src, t))) ∧
    ∀ srcva len, copyin root srcva len m =
      .ok (if ∀ k, k < len → m.Readable root (srcva + k) then some (m.userBytes root srcva len)
        else none, m) := by
  refine ⟨fun dstva src => ?_, fun srcva len => ?_⟩
  · obtain ⟨ok, t, hrun, hst, hok⟩ :=
      wp_total (copyoutLoop_stored src.length m dstva src le_rfl ha)
    refine ⟨ok, t, hrun, hok, hst.lookup ha, hst.page, fun htrue => ?_⟩
    have hw := hok.mp htrue
    have hz' x (hx : t.Readable root x) : t.frame root x ≠ 0 := by
      rw [hst.frame ha]
      exact hz x ((hst.readable ha).mp hx)
    refine ⟨fun x hx => hst.userByte ha hw hx, ?_⟩
    obtain ⟨r, u, hrun', rfl, rfl⟩ :=
      wp_total (copyinLoop_spec hz' src.length dstva src.length le_rfl)
    rw [copyin, hrun', if_pos fun k hk => (hst.readable ha).mpr (hw k hk).1]
    rw [hst.userBytes ha hw]
  · obtain ⟨r, t, hrun, rfl, rfl⟩ := wp_total (copyinLoop_spec hz len srcva len le_rfl)
    exact hrun

theorem user_copies_check_pages_onePage : ∃ t,
    copyout 0x80010000 5 [1, 2, 3] onePage = .ok (true, t) ∧
    copyin 0x80010000 5 3 t = .ok (some [1, 2, 3], t) := by
  obtain ⟨_, hkend, hspace, _⟩ := space_onePage
  have hcopies := user_copies_check_pages hspace.unaliased fun _ hx => hspace.frame_ne_zero hkend hx
  obtain ⟨ok, t, hrun, hok, _, _, hin⟩ := hcopies.1 5 [1, 2, 3]
  obtain rfl : ok = true := hok.mpr (by decide +kernel)
  exact ⟨t, hrun, (hin rfl).2⟩

def twicePage : Mem :=
  stateOf (mappages 0x80010000 pgsize pgsize 0x80020000 (pteR ||| pteW ||| pteU)) onePage

/-- The last level of the page table is itself mapped as page 1 of the user. -/
def ownTable : Mem :=
  stateOf (mappages 0x80010000 pgsize pgsize 0x80012000 (pteR ||| pteW ||| pteU)) onePage

/-- The end of a copy to both pages overwrites its beginning, and a copy to the page table takes the
page away that it is written to. -/
theorem copyout_twicePage : (∀ x ∈ [0, pgsize], twicePage.Writable 0x80010000 x ∧
      twicePage.frame 0x80010000 x = 0x80020000) ∧
    (∃ t, copyout 0x80010000 0 (List.replicate pgsize 1 ++ [2]) twicePage = .ok (true, t) ∧
      t.userByte 0x80010000 0 = 2) ∧
    ∃ t, copyout 0x80010000 pgsize (List.replicate 16 0) ownTable = .ok (true, t) ∧
      ¬ t.Readable 0x80010000 pgsize := by
  have hrun : ∃ p ∈ (copyout 0x80010000 0 (List.replicate pgsize 1 ++ [2]) twicePage).toOption,
      p.1 = true ∧ p.2.userByte 0x80010000 0 = 2 := by decide +kernel
  have hown : ∃ p ∈ (copyout 0x80010000 pgsize (List.replicate 16 0) ownTable).toOption,
      p.1 = true ∧ ¬ p.2.Readable 0x80010000 pgsize := by decide +kernel
  obtain ⟨⟨ok, t⟩, hp, rfl, hbyte⟩ := hrun
  obtain ⟨⟨ok, u⟩, hq, rfl, hgone⟩ := hown
  exact ⟨by decide +kernel, ⟨t, toOption_eq_some.mp hp, hbyte⟩, u, toOption_eq_some.mp hq, hgone⟩

/-- What `copyinstr` stores, byte by byte: up to `max` user bytes from `va` on, and whether the last
of them is a NUL. -/
def Mem.userString (m : Mem) (root : ℕ) : ℕ → ℕ → List UInt8 × Bool
  | 0, _ => ([], false)
  | max + 1, va =>
    if m.Readable root va then
      if m.userByte root va = 0 then ([0], true)
      else
        let rest := m.userString root max (va + 1)
        (m.userByte root va :: rest.1, rest.2)
    else ([], false)

theorem userString_round (n : ℕ) : ∀ (max va : ℕ), n ≤ max →
    (∀ k < n, m.Readable root (va + k)) → m.userString root max va =
      if 0 ∈ m.userBytes root va n then
        ((m.userBytes root va n).takeWhile (· != 0) ++ [0], true)
      else (m.userBytes root va n ++ (m.userString root (max - n) (va + n)).1,
        (m.userString root (max - n) (va + n)).2) := by
  induction n with
  | zero =>
    intro max va _ _
    simp [userBytes_zero]
  | succ n ih =>
    intro max va hle hread
    cases max with
    | zero => omega
    | succ max =>
      have hrest := ih max (va + 1) (by omega) fun k hk => by
        rw [Nat.add_assoc, Nat.add_comm 1]
        exact hread (k + 1) (by omega)
      have h0 : m.Readable root va := hread 0 (Nat.succ_pos n)
      rw [Nat.add_right_comm, Nat.add_assoc] at hrest
      rw [Mem.userString, if_pos h0, userBytes_succ, Nat.add_sub_add_right]
      by_cases hc : m.userByte root va = 0
      · simp [hc]
      have hc' : (0 : UInt8) ≠ m.userByte root va := fun h => hc h.symm
      rw [if_neg hc]
      dsimp only
      rw [hrest]
      by_cases hmem : 0 ∈ m.userBytes root (va + 1) n
      · simp [hmem, hc]
      · simp [hmem, hc']

theorem userString_next (max va : ℕ) :
    m.userString root (max - firstPart va max) (va + firstPart va max) =
      m.userString root (max - firstPart va max) (va + (pgsize - va % pgsize)) := by
  rcases (firstPart_le va max).eq_or_lt with heq | hlt
  · rw [heq, Nat.sub_self]
    rfl
  · rw [firstPart_next hlt]

theorem copyinstrLoop_spec (hz : ∀ x, m.Readable root x → m.frame root x ≠ 0) (fuel : ℕ) :
    ∀ (srcva max : ℕ), max ≤ fuel → wp (copyinstrLoop root fuel srcva max) (fun r t =>
      t = m ∧ r = m.userString root max srcva) E m := by
  induction fuel with
  | zero =>
    intro srcva max hmax
    obtain rfl := Nat.le_zero.mp hmax
    exact ⟨rfl, rfl⟩
  | succ fuel ih =>
    intro srcva max hmax
    unfold copyinstrLoop
    split
    next h0 =>
      subst h0
      exact ⟨rfl, rfl⟩
    next hne =>
      dsimp only
      refine wp_seq (walkaddr_pgrounddown hz srcva) ?_
      rintro r t ⟨rfl, hr, hframe⟩
      have hpos : 0 < firstPart srcva max := firstPart_pos (Nat.pos_of_ne_zero hne)
      have hle := firstPart_le srcva max
      split
      next hr0 =>
        refine ⟨rfl, ?_⟩
        obtain ⟨max, rfl⟩ := Nat.exists_eq_succ_of_ne_zero hne
        rw [Mem.userString, if_neg fun h => hr.mpr h hr0]
      next hr0 =>
        have hread := hr.mp hr0
        have hround := userString_round (firstPart srcva max) max srcva hle fun k hk =>
          readable_page (firstPart_div hk).1 hread
        rw [wp_bind, wp_get, sub_pgrounddown, next_page hread.1, hframe hread]
        rw [show t.bytes (t.frame root srcva) (srcva % pgsize)
            (min (pgsize - srcva % pgsize) max) = _ from bytes_firstPart hread]
        split
        next hmem =>
          rw [if_pos hmem] at hround
          exact ⟨rfl, hround.symm⟩
        next hmem =>
          rw [if_neg hmem] at hround
          rw [wp_bind]
          change wp (copyinstrLoop root fuel _ (max - firstPart srcva max)) _ E t
          refine wp_post (ih _ _ ?_) ?_
          · omega
          rintro r' t' ⟨rfl, rfl⟩
          rw [hround, userString_next]
          exact ⟨rfl, rfl⟩

/-- The first NUL of the user string at `va` is its byte `k`, and the user can read up to there. -/
structure Mem.NulAt (m : Mem) (root va k : ℕ) : Prop where
  nul : m.userByte root (va + k) = 0
  first : ∀ j, j < k → m.userByte root (va + j) ≠ 0
  readable : ∀ j, j ≤ k → m.Readable root (va + j)

theorem Mem.NulAt.succ (h : m.NulAt root (va + 1) k) (hr : m.Readable root va)
    (hc : m.userByte root va ≠ 0) : m.NulAt root va (k + 1) := by
  have hadd j : va + (j + 1) = va + 1 + j := by omega
  refine ⟨hadd k ▸ h.nul, fun j hj => ?_, fun j hj => ?_⟩
  · cases j with
    | zero => exact hc
    | succ j => exact hadd j ▸ h.first j (by omega)
  · cases j with
    | zero => exact hr
    | succ j => exact hadd j ▸ h.readable j (by omega)

theorem Mem.NulAt.tail (h : m.NulAt root va (k + 1)) : m.NulAt root (va + 1) k := by
  have hadd j : va + 1 + j = va + (j + 1) := by omega
  exact ⟨hadd k ▸ h.nul, fun j hj => hadd j ▸ h.first (j + 1) (by omega),
    fun j hj => hadd j ▸ h.readable (j + 1) (by omega)⟩

theorem userString_of_nulAt : ∀ {max va : ℕ}, k < max → m.NulAt root va k →
    m.userString root max va = (m.userBytes root va (k + 1), true) := by
  induction k with
  | zero =>
    intro max va hmax h
    obtain ⟨max, rfl⟩ := Nat.exists_eq_succ_of_ne_zero hmax.ne'
    have hr : m.Readable root va := h.readable 0 le_rfl
    have hnul : m.userByte root va = 0 := h.nul
    rw [Mem.userString, if_pos hr, if_pos hnul, userBytes_succ, hnul]
    rfl
  | succ k ih =>
    intro max va hmax h
    obtain ⟨max, rfl⟩ := Nat.exists_eq_succ_of_ne_zero (Nat.ne_zero_of_lt hmax)
    have hr : m.Readable root va := h.readable 0 (Nat.zero_le _)
    have hc : m.userByte root va ≠ 0 := h.first 0 (Nat.succ_pos k)
    rw [Mem.userString, if_pos hr, if_neg hc, ih (Nat.lt_of_succ_lt_succ hmax) h.tail,
      userBytes_succ _ (k + 1)]

theorem nulAt_of_userString {max : ℕ} : ∀ {va : ℕ}, (m.userString root max va).2 = true →
    ∃ k < max, m.NulAt root va k := by
  induction max with
  | zero =>
    intro va h
    cases h
  | succ max ih =>
    intro va h
    rw [Mem.userString] at h
    split at h
    next hr =>
      split at h
      next hc =>
        refine ⟨0, Nat.succ_pos max, hc, fun j hj => absurd hj (Nat.not_lt_zero j), fun j hj => ?_⟩
        obtain rfl := Nat.le_zero.mp hj
        exact hr
      next hc =>
        obtain ⟨k, hk, hnul⟩ := ih h
        exact ⟨k + 1, Nat.succ_lt_succ hk, hnul.succ hr hc⟩
    · cases h

theorem length_userString_le (max : ℕ) : ∀ va, (m.userString root max va).1.length ≤ max := by
  induction max with
  | zero => exact fun va => le_rfl
  | succ max ih =>
    intro va
    rw [Mem.userString]
    split
    · split
      · exact Nat.succ_le_succ (Nat.zero_le max)
      · exact Nat.succ_le_succ (ih (va + 1))
    · exact Nat.zero_le _

/-- `copyinstr` stores at most `max` bytes. It succeeds exactly if there is a NUL among the first
`max` bytes and the user can read up to it; then it has stored the bytes up to the NUL, and the
pages after the one with the NUL make no difference. -/
theorem copyinstr_copies_string (hz : ∀ x, m.Readable root x → m.frame root x ≠ 0)
    (srcva max : ℕ) : ∃ dst ok, copyinstr root srcva max m = .ok ((dst, ok), m) ∧
      dst.length ≤ max ∧ (ok = true ↔ ∃ k, k < max ∧ m.NulAt root srcva k) ∧
      ∀ k, k < max → m.NulAt root srcva k → dst = m.userBytes root srcva (k + 1) ∧
        ∀ m' : Mem, (∀ x, m'.Readable root x → m'.frame root x ≠ 0) →
          (∀ x, x / pgsize ≤ (srcva + k) / pgsize → m'.lookup root x = m.lookup root x ∧
            m'.userByte root x = m.userByte root x) →
          copyinstr root srcva max m' = .ok ((dst, ok), m') := by
  obtain ⟨r, t, hrun, rfl, rfl⟩ := wp_total (copyinstrLoop_spec hz max srcva max le_rfl)
  refine ⟨_, _, hrun, length_userString_le max srcva, ⟨nulAt_of_userString, ?_⟩, ?_⟩
  · rintro ⟨k, hk, hnul⟩
    rw [userString_of_nulAt hk hnul]
  · intro k hk hnul
    rw [userString_of_nulAt hk hnul]
    refine ⟨rfl, fun m' hz' hagree => ?_⟩
    have hle j (hj : j ≤ k) : (srcva + j) / pgsize ≤ (srcva + k) / pgsize :=
      Nat.div_le_div_right (Nat.add_le_add_left hj srcva)
    have hnul' : m'.NulAt root srcva k := by
      refine ⟨?_, fun j hj => ?_, fun j hj => ?_⟩
      · rw [(hagree _ le_rfl).2]
        exact hnul.nul
      · rw [(hagree _ (hle j hj.le)).2]
        exact hnul.first j hj
      · rw [Mem.Readable, (hagree _ (hle j hj)).1]
        exact hnul.readable j hj
    obtain ⟨r, u, hrun', rfl, rfl⟩ := wp_total (copyinstrLoop_spec hz' max srcva max le_rfl)
    rw [copyinstr, hrun', userString_of_nulAt hk hnul']
    have hbytes : u.userBytes root srcva (k + 1) = t.userBytes root srcva (k + 1) :=
      map_congr_left fun j hj =>
        (hagree _ (hle j (Nat.lt_succ_iff.mp (mem_range.mp hj)))).2
    rw [hbytes]

def hiPage : Mem := stateOf (copyout 0x80010000 4093 [104, 105, 0]) onePage

theorem copyinstr_copies_string_hi :
    copyinstr 0x80010000 4093 8 hiPage = .ok (([104, 105, 0], true), hiPage) := by
  obtain ⟨_, hkend, hspace, _⟩ := space_onePage
  have ha := hspace.unaliased
  have hz : ∀ x, hiPage.Readable 0x80010000 x → hiPage.frame 0x80010000 x ≠ 0 := by
    obtain ⟨ok, t, hrun, hst, _⟩ :=
      wp_total (copyoutLoop_stored 3 onePage 4093 [104, 105, 0] le_rfl ha)
    have hpage : hiPage = t := by
      unfold hiPage stateOf
      rw [copyout, show [104, 105, (0 : UInt8)].length = 3 from rfl, hrun]
    intro x hx
    rw [hpage] at hx ⊢
    rw [hst.frame ha]
    exact hspace.frame_ne_zero hkend ((hst.readable ha).mp hx)
  have hnul : hiPage.NulAt 0x80010000 4093 2 :=
    ⟨by decide +kernel, by decide +kernel, by decide +kernel⟩
  obtain ⟨dst, ok, hrun, _, hok, hdst⟩ := copyinstr_copies_string hz 4093 8
  have hbytes : hiPage.userBytes 0x80010000 4093 3 = [104, 105, 0] := by decide +kernel
  obtain rfl : ok = true := hok.mpr ⟨2, by decide, hnul⟩
  rw [hrun, (hdst 2 (by decide) hnul).1, hbytes]

end Xv6.Vm
