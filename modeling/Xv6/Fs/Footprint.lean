import Xv6.Fs.Bytes
import Xv6.Fs.Sys

/-! The blocks that one transaction of `filewrite` logs. The indirect block is charged for in
advance, with its bitmap block, as long as the inode has none; every other round of `writei` then
costs two blocks, or one if the file has the block already. -/
namespace Xv6.Fs
open Function Hoare List State
variable {P : Type} {s t u : State P} {i c c' : ℕ} {src : Src}

namespace State

/-- The distinct blocks logged, with what the indirect block may still cost. -/
def charge (s : State P) (i : ℕ) : ℕ :=
  if (s.inode i).din.addr ndirect = 0 then s.logged.toFinset.card + 2
  else (insert ((s.inode i).din.addr ndirect) s.logged.toFinset).card

def loaded (s : State P) (i : ℕ) : Dinode :=
  if (s.inode i).valid then (s.inode i).din else s.disk.dinode i

theorem card_le_charge (s : State P) (i : ℕ) : s.logged.toFinset.card ≤ s.charge i := by
  unfold charge
  split
  · omega
  · exact Finset.card_le_card (Finset.subset_insert _ _)

theorem charge_of_zero (h : (s.inode i).din.addr ndirect = 0) :
    s.charge i = s.logged.toFinset.card + 2 := if_pos h

private theorem charge_of_ne (h : (s.inode i).din.addr ndirect ≠ 0) :
    s.charge i = (insert ((s.inode i).din.addr ndirect) s.logged.toFinset).card := if_neg h

theorem charge_le (s : State P) (i : ℕ) : s.charge i ≤ s.logged.toFinset.card + 2 := by
  unfold charge
  split
  · rfl
  · exact (Finset.card_insert_le _ _).trans (by omega)

theorem charge_le_of_ne (h : (s.inode i).din.addr ndirect ≠ 0) :
    s.charge i ≤ s.logged.toFinset.card + 1 := by
  rw [charge_of_ne h]
  exact Finset.card_insert_le _ _

private theorem charge_congr (hl : t.logged = s.logged)
    (ha : (t.inode i).din.addr ndirect = (s.inode i).din.addr ndirect) :
    t.charge i = s.charge i := by
  rw [charge, charge, hl, ha]

theorem charge_log_le (s : State P) (i b : ℕ) : (s.log b).charge i ≤ s.charge i + 1 := by
  unfold charge
  simp only [log_inode, log_logged, toFinset_cons]
  split
  · have := Finset.card_insert_le b s.logged.toFinset
    omega
  · rw [Finset.insert_comm]
    exact Finset.card_insert_le _ _

theorem charge_le_log (s : State P) (i b : ℕ) : s.charge i ≤ (s.log b).charge i := by
  unfold charge
  simp only [log_inode, log_logged, toFinset_cons]
  split
  · have := Finset.card_le_card (Finset.subset_insert b s.logged.toFinset)
    omega
  · rw [Finset.insert_comm]
    exact Finset.card_le_card (Finset.subset_insert _ _)

/-- A block that is logged or the indirect block itself costs nothing more. -/
private theorem charge_log_of_mem {b : ℕ}
    (h : b ∈ s.logged ∨ (b = (s.inode i).din.addr ndirect ∧ b ≠ 0)) : (s.log b).charge i = s.charge i := by
  unfold charge
  simp only [log_inode, log_logged, toFinset_cons]
  rcases h with h | ⟨rfl, hn⟩
  · rw [Finset.insert_eq_of_mem (mem_toFinset.mpr h)]
  · rw [if_neg hn, if_neg hn, Finset.insert_idem]

end State

structure Spent (i c : ℕ) (s t : State P) : Prop where
  file : t.file = s.file
  valid : (t.inode i).valid = (s.inode i).valid
  size : (t.inode i).din.size = (s.inode i).din.size
  addr : ∀ k, (s.inode i).din.addr k ≠ 0 → (t.inode i).din.addr k = (s.inode i).din.addr k
  charge : t.charge i ≤ s.charge i + c

namespace Spent

theorem refl (i : ℕ) (s : State P) : Spent i 0 s s := ⟨rfl, rfl, rfl, fun _ _ => rfl, le_rfl⟩

theorem trans (h : Spent i c s t) (h' : Spent i c' t u) : Spent i (c + c') s u where
  file := h'.file.trans h.file
  valid := h'.valid.trans h.valid
  size := h'.size.trans h.size
  addr k hk := by
    have ht := h.addr k hk
    rw [h'.addr k (ht ▸ hk), ht]
  charge := by
    have h1 := h.charge
    have h2 := h'.charge
    omega

theorem mono (h : Spent i c s t) (hc : c ≤ c') : Spent i c' s t :=
  ⟨h.file, h.valid, h.size, h.addr, h.charge.trans (by omega)⟩

theorem log (s : State P) (i b : ℕ) : Spent i 1 s (s.log b) :=
  ⟨rfl, rfl, rfl, fun _ _ => rfl, s.charge_log_le i b⟩

theorem setDisk (s : State P) (i : ℕ) (v : Volume) : Spent i 0 s (s.setDisk v) :=
  ⟨rfl, rfl, rfl, fun _ _ => rfl, (charge_congr rfl rfl).le⟩

theorem of_log {b : ℕ} (h : Spent i c s (t.log b)) : Spent i c s t :=
  ⟨h.file, h.valid, h.size, h.addr, (t.charge_le_log i b).trans h.charge⟩

end Spent

/-- `balloc` logs a bitmap block and the block it returns, or nothing. -/
theorem balloc_logged : wp balloc (fun r t => t.inode = s.inode ∧ t.file = s.file ∧
    ((r = 0 ∧ t.logged = s.logged) ∨ ∃ b, t.logged = r :: b :: s.logged)) (fun _ => True) s := by
  unfold balloc
  simp only [wp_bind, wp_get]
  split
  · exact ⟨rfl, rfl, .inl ⟨rfl, rfl⟩⟩
  simp only [wp_bind, wp_modify, wp_logWrite, bzero, wp_pure]
  split
  · split
    · exact ⟨rfl, rfl, .inr ⟨_, rfl⟩⟩
    · trivial
  · trivial

private theorem charge_balloc {r b : ℕ} (hi : t.inode = s.inode)
    (hl : t.logged = r :: b :: s.logged) : t.charge i ≤ s.charge i + 2 := by
  have hc : t.charge i = ((s.log b).log r).charge i := charge_congr hl (by rw [hi]; rfl)
  have h1 := (s.log b).charge_log_le i r
  have h2 := s.charge_log_le i b
  omega

/-- `balloc` costs two blocks, and then logging its result costs nothing. -/
theorem spent_balloc {r : ℕ} (hi : t.inode = s.inode) (hf : t.file = s.file)
    (hl : (r = 0 ∧ t.logged = s.logged) ∨ ∃ b, t.logged = r :: b :: s.logged) :
    Spent i 2 s (t.log r) := by
  refine ⟨hf, by simp [hi], by simp [hi], by simp [hi], ?_⟩
  rcases hl with ⟨rfl, hl⟩ | ⟨b, hl⟩
  · have h1 := t.charge_log_le i 0
    rw [charge_congr hl (by rw [hi])] at h1
    omega
  · rw [charge_log_of_mem (.inl (by simp [hl]))]
    exact charge_balloc hi hl

theorem bmapAddr_spent {k : ℕ} (hk : k < ndirect) : wp (bmapAddr i k) (fun r t =>
    Spent i 2 s (t.log r) ∧ (r ≠ 0 → (t.inode i).din.addr k = r) ∧
      ((s.inode i).din.addr k ≠ 0 → t = s)) (fun _ => True) s := by
  unfold bmapAddr
  simp only [wp_bind, wp_get]
  split
  next hz =>
    refine wp_seq balloc_logged ?_
    rintro r t ⟨hi, hf, hl⟩
    have hspent := spent_balloc (i := i) hi hf hl
    split
    next hr =>
      subst hr
      exact ⟨hspent, fun hc => absurd rfl hc, fun hc => absurd hz hc⟩
    next hr =>
      simp only [wp_bind, wp_modify, wp_pure]
      refine ⟨⟨hf, ?_, ?_, ?_, ?_⟩, fun _ => ?_, fun hc => absurd hz hc⟩
      · simp [hi]
      · simp [hi]
      · intro j hj
        simp only [State.log_inode, State.setDin_inode, update_self, hi,
          Dinode.addr_setAddr _ (.inl hk.le)]
        have hne : j ≠ k := by
          rintro rfl
          exact hj hz
        rw [if_neg hne]
      · refine (charge_congr ?_ ?_).trans_le hspent.charge
        · rfl
        · simp only [State.log_inode, State.setDin_inode, update_self,
            Dinode.addr_setAddr _ (.inl hk.le)]
          exact if_neg (by omega)
      · simp only [State.setDin_inode, update_self, if_pos,
          Dinode.addr_setAddr _ (.inl hk.le)]
  next hn =>
    exact ⟨(Spent.log s i _).mono (by omega), fun _ => rfl, fun _ => rfl⟩

/-- The indirect block: it is charged for already, unless none can be had. -/
theorem bmapAddr_indirect_spent : wp (bmapAddr i ndirect) (fun a t =>
    (a = 0 → Spent i 2 s (t.log a)) ∧
    (a ≠ 0 → Spent i 0 s t ∧ (t.inode i).din.addr ndirect = a)) (fun _ => True) s := by
  unfold bmapAddr
  simp only [wp_bind, wp_get]
  split
  next hz =>
    refine wp_seq balloc_logged ?_
    rintro r t ⟨hi, hf, hl⟩
    split
    next hr =>
      subst hr
      exact ⟨fun _ => spent_balloc hi hf hl, fun hc => absurd rfl hc⟩
    next hr =>
      simp only [wp_bind, wp_modify, wp_pure]
      refine ⟨fun hc => absurd hc hr, fun _ => ⟨⟨hf, ?_, ?_, ?_, ?_⟩, ?_⟩⟩
      · simp [hi]
      · simp [hi]
      · intro j hj
        simp only [State.setDin_inode, update_self, hi, Dinode.addr_setAddr _ (.inl le_rfl)]
        have hne : j ≠ ndirect := by
          rintro rfl
          exact hj hz
        rw [if_neg hne]
      · have haddr : ((t.setDin i ((t.inode i).din.setAddr ndirect r)).inode i).din.addr ndirect =
            r := by
          simp [Dinode.addr_setAddr]
        obtain ⟨b, hl⟩ := hl.resolve_left fun hc => hr hc.1
        rw [charge_of_ne (by rw [haddr]; exact hr), haddr, charge_of_zero hz]
        simp only [State.setDin_logged, hl, toFinset_cons, Finset.insert_idem]
        have h1 := Finset.card_insert_le r (insert b s.logged.toFinset)
        have h2 := Finset.card_insert_le b s.logged.toFinset
        omega
      · simp [Dinode.addr_setAddr]
  next hn => exact ⟨fun hc => absurd hc hn, fun _ => ⟨.refl i s, rfl⟩⟩

theorem bmapEntry_spent {a j : ℕ} (ha : (s.inode i).din.addr ndirect = a) (hn : a ≠ 0) :
    wp (bmapEntry a j) (fun r t => Spent i 2 s (t.log r) ∧ (t.inode i).din.addr ndirect = a)
      (fun _ => True) s := by
  unfold bmapEntry
  simp only [wp_bind, wp_get]
  split
  next hz =>
    refine wp_seq balloc_logged ?_
    rintro r t ⟨hi, hf, hl⟩
    have hspent := spent_balloc (i := i) hi hf hl
    split
    next hr =>
      subst hr
      exact ⟨hspent, by rw [hi, ha]⟩
    next hr =>
      simp only [wp_bind, wp_modify, wp_logWrite, wp_pure]
      split
      · obtain ⟨b, hl⟩ := hl.resolve_left fun hc => hr hc.1
        refine ⟨⟨hf, by simp [hi], by simp [hi], by simp [hi], ?_⟩, by simp [hi, ha]⟩
        rw [charge_log_of_mem (.inl (by simp [hl])),
          charge_log_of_mem (.inr ⟨by simp [hi, ha], hn⟩)]
        exact (charge_congr rfl rfl).trans_le (charge_balloc hi hl)
      · trivial
  next hw => exact ⟨(Spent.log s i _).mono (by omega), ha⟩

/-- The address by which `bmap` reaches block `bn`: its own or that of the indirect block. -/
def rootAddr (d : Dinode) (bn : ℕ) : ℕ := d.addr (min bn ndirect)

/-- What `bmap` costs, with the block it returns; if there is a way to the block, less is left to
pay for. -/
theorem bmap_spent (bn : ℕ) : wp (bmap i bn) (fun r t => Spent i 2 s (t.log r) ∧
    (r ≠ 0 → rootAddr (t.inode i).din bn ≠ 0) ∧ (rootAddr (s.inode i).din bn ≠ 0 →
      (t.log r).charge i ≤ s.logged.toFinset.card + 3)) (fun _ => True) s := by
  unfold bmap
  split
  next hlt =>
    have hroot (d : Dinode) : rootAddr d bn = d.addr bn := by rw [rootAddr, min_eq_left hlt.le]
    simp only [hroot]
    refine wp_post (bmapAddr_spent hlt) ?_
    rintro r t ⟨hspent, haddr, hsame⟩
    refine ⟨hspent, fun hr => haddr hr ▸ hr, fun hn => ?_⟩
    obtain rfl := hsame hn
    have h1 := t.charge_log_le i r
    have h2 := t.charge_le i
    omega
  next hlt =>
    have hroot (d : Dinode) : rootAddr d bn = d.addr ndirect := by
      rw [rootAddr, min_eq_right (not_lt.mp hlt)]
    simp only [hroot]
    split
    · rw [wp_bind]
      refine wp_post bmapAddr_indirect_spent ?_
      rintro a t ⟨hnone, hsome⟩
      have hpaid (u : State P) (hu : Spent i 2 s u) (hn : (s.inode i).din.addr ndirect ≠ 0) :
          u.charge i ≤ s.logged.toFinset.card + 3 := by
        have h1 := hu.charge
        have h2 := charge_le_of_ne hn
        omega
      split
      next hz =>
        have hs := hnone hz
        rw [hz] at hs
        exact ⟨hs, fun hc => absurd rfl hc, hpaid _ hs⟩
      next hn =>
        obtain ⟨hspent, haddr⟩ := hsome hn
        refine wp_post (bmapEntry_spent haddr hn) ?_
        rintro r u ⟨hs, haddr'⟩
        have hall := hspent.trans hs
        exact ⟨hall, fun _ => haddr' ▸ hn, hpaid _ hall⟩
    · trivial

theorem Spent.root (h : Spent i c s t) {bn : ℕ} (hn : rootAddr (s.inode i).din bn ≠ 0) :
    rootAddr (t.inode i).din bn ≠ 0 := by
  unfold rootAddr at hn ⊢
  rw [h.addr _ hn]
  exact hn

/-- The loop over at most `k` blocks. If it writes all its bytes there is a way to the last one. -/
theorem writeLoop_spent (fuel : ℕ) : ∀ (s : State P) k off tot n,
    (n ≤ tot ∨ off % bsize + (n - tot) ≤ k * bsize) →
    wp (writeLoop i src fuel off tot n) (fun r t => Spent i (2 * k) s t ∧
      (tot < r → n ≤ r → rootAddr (t.inode i).din ((off + (n - tot) - 1) / bsize) ≠ 0))
      (fun _ => True) s := by
  induction fuel with
  | zero =>
    intro s k off tot n _
    exact ⟨(Spent.refl i s).mono (by omega), fun hc => by omega⟩
  | succ fuel ih =>
    intro s k off tot n hk
    unfold writeLoop
    split
    next hle => exact ⟨(Spent.refl i s).mono (by omega), fun hc => by omega⟩
    next hlt =>
      obtain ⟨k, rfl⟩ : ∃ j, k = j + 1 := ⟨k - 1, by
        rcases k with _ | k
        · omega
        · rfl⟩
      refine wp_seq (bmap_spent (off / bsize)) ?_
      rintro a t ⟨hspent, hroot, _⟩
      split
      next hz => exact ⟨hspent.of_log.mono (by omega), fun hc => by omega⟩
      next ha =>
        simp only [wp_bind, wp_modify]
        split
        · rw [wp_bind, wp_logWrite]
          split
          · set m := min (n - tot) (bsize - off % bsize) with hm
            have hmod := Nat.mod_lt off (show 0 < bsize by decide)
            have hnext : n ≤ tot + m ∨ (off + m) % bsize + (n - (tot + m)) ≤ k * bsize := by
              by_cases hlast : n ≤ tot + m
              · exact .inl hlast
              have hmid : m = bsize - off % bsize := by omega
              have hzero : (off + m) % bsize = 0 := by
                rw [hmid]
                simp only [bsize] at hmod ⊢
                omega
              have := hk.resolve_left hlt
              right
              rw [hzero]
              simp only [bsize] at hmod hmid this ⊢
              omega
            refine wp_post (ih _ k (off + m) (tot + m) n hnext) ?_
            rintro r u ⟨hrest, hlast⟩
            have hround : Spent i 2 s ((t.setDisk (t.disk.setData a
                (copyin (t.disk.data a) (off % bsize) m src tot))).log a) :=
              hspent.trans (Spent.setDisk (t.log a) i _)
            refine ⟨(hround.trans hrest).mono (by omega), fun hr hn => ?_⟩
            by_cases hend : tot + m < r
            · have hl := hlast hend hn
              rwa [show off + m + (n - (tot + m)) - 1 = off + (n - tot) - 1 by omega] at hl
            -- This round was the last.
            have hblock : (off + (n - tot) - 1) / bsize = off / bsize := by
              have hm' : n - tot = m := by omega
              rw [hm', show off + m - 1 = off + (m - 1) by omega]
              exact (div_mod_of_block off (m - 1) (by omega)).1
            rw [hblock]
            exact hrest.root (hroot ha)
          · trivial
        · exact ⟨(hspent.of_log.trans (Spent.setDisk t i _)).mono (by omega), fun hc => by omega⟩

theorem writeLoop_spent_covered {fuel off n k : ℕ}
    (hroot : rootAddr (s.inode i).din (off / bsize) ≠ 0) (hk : off % bsize + n ≤ (k + 1) * bsize) :
    wp (writeLoop i src fuel off 0 n) (fun _ t =>
      t.charge i ≤ s.logged.toFinset.card + 3 + 2 * k) (fun _ => True) s := by
  have hstart := s.charge_le i
  cases fuel with
  | zero =>
    change s.charge i ≤ _
    omega
  | succ fuel =>
    unfold writeLoop
    split
    · change s.charge i ≤ _
      omega
    next hlt =>
      refine wp_seq (bmap_spent (off / bsize)) ?_
      rintro a t ⟨_, _, hpaid⟩
      have hpaid := hpaid hroot
      have hle := t.charge_le_log i a
      split
      · change t.charge i ≤ _
        omega
      simp only [wp_bind, wp_modify]
      split
      · rw [wp_bind, wp_logWrite]
        split
        · set m := min (n - 0) (bsize - off % bsize) with hm
          have hmod := Nat.mod_lt off (show 0 < bsize by decide)
          have hnext : n ≤ 0 + m ∨ (off + m) % bsize + (n - (0 + m)) ≤ k * bsize := by
            by_cases hlast : n ≤ 0 + m
            · exact .inl hlast
            · have hmid : m = bsize - off % bsize := by omega
              right
              simp only [bsize] at hmod hmid hk ⊢
              omega
          refine wp_post (writeLoop_spent fuel _ k (off + m) (0 + m) n hnext) ?_
          rintro r u ⟨hrest, _⟩
          have h1 : u.charge i ≤ (t.log a).charge i + 2 * k := hrest.charge
          omega
        · trivial
      · change t.charge i ≤ _
        omega

theorem writei_spent {off n : ℕ} (hpos : 0 < n) (hn : n ≤ 3 * bsize)
    (hcov : off ≤ (s.inode i).din.size → off % bsize ≠ 0 →
      rootAddr (s.inode i).din (off / bsize) ≠ 0) :
    wp (writei i src off n) (fun r t => t.logged.toFinset.card ≤ s.logged.toFinset.card + 10 ∧
      t.file = s.file ∧ (t.inode i).valid = (s.inode i).valid ∧ (r = some n →
        (off + n) % bsize ≠ 0 → rootAddr (t.inode i).din ((off + n) / bsize) ≠ 0))
      (fun _ => True) s := by
  have hstart := s.charge_le i
  have hmod := Nat.mod_lt off (show 0 < bsize by decide)
  unfold writei
  simp only [wp_bind, wp_get]
  split
  · exact ⟨by omega, rfl, rfl, fun hr => by cases hr⟩
  next hoff =>
    split
    · exact ⟨by omega, rfl, rfl, fun hr => by cases hr⟩
    rw [wp_bind]
    have hbound : wp (writeLoop i src n off 0 n) (fun _ t =>
        t.charge i ≤ s.logged.toFinset.card + 9) (fun _ => True) s := by
      by_cases ha : off % bsize = 0
      · refine wp_post (writeLoop_spent n s 3 off 0 n (.inr (by omega))) ?_
        intro r t ht
        have := ht.1.charge
        omega
      · exact writeLoop_spent_covered (k := 3) (hcov (by omega) ha) (by omega)
    refine wp_post (wp_and (writeLoop_spent n s 4 off 0 n (.inr (by omega))) hbound) ?_
    rintro tot t ⟨⟨hspent, hlast⟩, hcharge⟩
    simp only [wp_bind, wp_modify, wp_iupdate, wp_pure]
    have hlog (u : State P) (hu : u.logged = t.logged) b :
        (u.log b).logged.toFinset.card ≤ s.logged.toFinset.card + 10 := by
      have h1 := t.card_le_charge i
      have h2 := Finset.card_insert_le b t.logged.toFinset
      simp only [State.log_logged, hu, toFinset_cons]
      omega
    have hroot (htot : some tot = some n) (hne : (off + n) % bsize ≠ 0) : rootAddr (t.inode i).din
        ((off + n) / bsize) ≠ 0 := by
      have htot : tot = n := Option.some.inj htot
      have hl := hlast (by omega) (by omega)
      rwa [show (off + (n - 0) - 1) / bsize = (off + n) / bsize by
        simp only [bsize] at hne ⊢
        omega] at hl
    split
    · split
      · exact ⟨hlog _ rfl _, hspent.file, by simp [hspent.valid],
          by simpa [rootAddr, Dinode.addr] using hroot⟩
      · trivial
    · split
      · exact ⟨hlog _ rfl _, hspent.file, hspent.valid, hroot⟩
      · trivial

/-- The blocks that each transaction of the loop logs. -/
def filewriteSections (f : Fin nfile) (src : Src) : ℕ → ℕ → ℕ → State P → List (List ℕ)
  | 0, _, _, _ => []
  | fuel + 1, i, n, s =>
    if n ≤ i then []
    else
      let n1 := min (n - i) filewriteMax
      match filewriteSection f src i n1 s with
      | .error _ => []
      | .ok (ok, t) => t.logged :: if ok then filewriteSections f src fuel (i + n1) n t else []

/-- There is a way to the block in which the next byte goes, unless it starts a block. -/
def Covered (f : Fin nfile) (s : State P) : Prop :=
  (s.file f).off ≤ (s.loaded (s.file f).ip).size → (s.file f).off % bsize ≠ 0 →
    rootAddr (s.loaded (s.file f).ip) ((s.file f).off / bsize) ≠ 0

theorem ilock_loaded : wp (ilock i) (fun _ t => (t.inode i).din = s.loaded i ∧
    (t.inode i).valid = true ∧ t.file = s.file ∧ t.logged = s.logged) (fun _ => True) s := by
  unfold ilock
  simp only [wp_bind, wp_get]
  split
  · trivial
  split
  next hv => exact ⟨(if_pos hv).symm, hv, rfl, rfl⟩
  next hv =>
    split
    · trivial
    · simp only [wp_bind, wp_set]
      split
      · trivial
      · exact ⟨by simp [State.loaded, hv], by simp, rfl, rfl⟩

theorem filewriteSection_fits {f : Fin nfile} {n1 : ℕ} (hpos : 0 < n1) (hn : n1 ≤ filewriteMax)
    (hcov : Covered f s) : wp (filewriteSection f src i n1) (fun ok t =>
      t.logged.toFinset.card ≤ maxopblocks ∧ (ok = true → Covered f t)) (fun _ => True) s := by
  unfold filewriteSection beginOp endOp
  simp only [wp_bind, wp_modify, wp_get]
  refine wp_post ilock_loaded ?_
  rintro _ t ⟨hdin, hvalid, hfile, hlogged⟩
  have hload : s.beginOp.loaded = s.loaded := rfl
  have hcov' : (s.file f).off ≤ (t.inode (s.file f).ip).din.size → (s.file f).off % bsize ≠ 0 →
      rootAddr (t.inode (s.file f).ip).din ((s.file f).off / bsize) ≠ 0 := by
    rw [State.beginOp_file] at hdin
    rw [hdin, hload]
    exact hcov
  refine wp_post (writei_spent hpos (hn.trans (by decide)) hcov') ?_
  rintro r u ⟨hcard, hfile', hvalid', hroot⟩
  have hu : u.file f = s.file f := by
    rw [hfile', hfile]
    rfl
  have hten : u.logged.toFinset.card ≤ maxopblocks := by
    rw [hlogged] at hcard
    simpa using hcard
  simp only [iunlock, wp_bind, wp_get]
  split
  · trivial
  refine ⟨hten, fun hok _ hne => ?_⟩
  have hr : r = some n1 := by simpa using hok
  simp only [hr, State.endOp_file, State.setFile_file, update_self, hu, Option.getD_some] at hne ⊢
  have hl : State.loaded ((u.setFile f { s.file f with off := (s.file f).off + n1 }).endOp)
      (s.file f).ip = (u.inode (s.file f).ip).din := by
    have hv : (u.inode (s.file f).ip).valid = true := hvalid'.trans hvalid
    exact if_pos hv
  rw [hl]
  exact hroot hr hne

theorem filewriteSections_fit (f : Fin nfile) (fuel : ℕ) : ∀ (s : State P) i n, Covered f s →
    ∀ l ∈ filewriteSections f src fuel i n s, l.toFinset.card ≤ maxopblocks := by
  induction fuel with
  | zero =>
    intro s i n _ l hl
    cases hl
  | succ fuel ih =>
    intro s i n hcov l hl
    unfold filewriteSections at hl
    split at hl
    · cases hl
    next hlt =>
      have hfits : wp (filewriteSection f src i (min (n - i) filewriteMax)) (fun ok t =>
          t.logged.toFinset.card ≤ maxopblocks ∧ (ok = true → Covered f t)) (fun _ => True) s :=
        filewriteSection_fits (lt_min (by omega) (by decide)) (min_le_right _ _) hcov
      dsimp only at hl
      split at hl
      · cases hl
      next ok t hrun =>
        obtain ⟨hcard, hnext⟩ := wp_ok hfits hrun
        rcases mem_cons.mp hl with rfl | hl
        · exact hcard
        · split at hl
          next hok => exact ih t _ n (hnext hok) l hl
          · cases hl

def State.Filled (s : State P) (i : ℕ) : Prop :=
  ∀ bn, bn * bsize < (s.loaded i).size → slotOf s.disk.data (s.loaded i) (dataSlot bn) ≠ 0

theorem rootAddr_of_slotOf {data : ℕ → Block} {d : Dinode} {bn : ℕ}
    (h : slotOf data d (dataSlot bn) ≠ 0) : rootAddr d bn ≠ 0 := by
  unfold rootAddr
  unfold slotOf dataSlot at h
  split at h
  next hlt =>
    rw [if_pos (by omega)] at h
    rwa [min_eq_left (by omega)]
  next hge =>
    rw [if_neg (by omega)] at h
    rw [min_eq_right (by omega)]
    intro hz
    rw [if_pos hz] at h
    exact h rfl

/-- Each transaction of `filewrite` fits its reservation: whatever the length of the write and the
size of the disk, each section from `begin_op` to `end_op` logs at most `MAXOPBLOCKS` blocks. -/
theorem filewrite_transactions_fit (s : State P) (f : Fin nfile) (src : Src) (n : ℕ)
    (hoff : (s.file f).off ≤ (s.loaded (s.file f).ip).size) (hfull : s.Filled (s.file f).ip) :
    ∀ l ∈ filewriteSections f src n 0 n s, l.toFinset.card ≤ maxopblocks := by
  apply filewriteSections_fit
  intro _ hne
  refine rootAddr_of_slotOf (hfull _ ?_)
  simp only [bsize] at hne hoff ⊢
  omega

def openEmptyFile : State Unit :=
  emptyFileState.setFile 0 ⟨1, .inode, true, true, 1, 0, 0⟩

/-- Four blocks are written in two transactions. -/
theorem filewrite_transactions_fit_two : ∃ l₁ l₂,
    filewriteSections 0 (fun _ => some 7) 4096 0 4096 openEmptyFile = [l₁, l₂] ∧
      l₁.toFinset.card ≤ maxopblocks ∧ l₂.toFinset.card ≤ maxopblocks := by
  have hrun : (filewriteSections 0 (fun _ => some 7) 4096 0 4096 openEmptyFile).length = 2 := by
    decide +kernel
  obtain ⟨l₁, l₂, hl⟩ := length_eq_two.mp hrun
  have hall := filewrite_transactions_fit openEmptyFile 0 (fun _ => some 7) 4096 (Nat.zero_le _)
    fun bn hbn => absurd hbn (Nat.not_lt_zero _)
  rw [hl] at hall
  exact ⟨l₁, l₂, hl, hall l₁ (by simp), hall l₂ (by simp)⟩

end Xv6.Fs
