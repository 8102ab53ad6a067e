import Xv6.Umalloc.Tiling

/-! What `free` does: it finds the place of a block by its address, wherever the search begins, and
joins it to its neighbours in the free list. -/
namespace Xv6.Umalloc
open Function List
variable {base x y z w bp p : ℕ} {ptr ptr' size : ℕ → ℕ} {l l₁ l₂ fl live : List ℕ} {h : Heap}

/-- From `x` the pointers lead through `l` to `y`. -/
def Path (ptr : ℕ → ℕ) : ℕ → List ℕ → ℕ → Prop
  | x, [], y => ptr x = y
  | x, a :: l, y => ptr x = a ∧ Path ptr a l y

namespace Path

theorem congr (h : Path ptr x l y) (hp : ∀ z ∈ x :: l, ptr' z = ptr z) : Path ptr' x l y := by
  induction l generalizing x with
  | nil => exact (hp x (.head _)).trans h
  | cons a l ih =>
    refine ⟨(hp x (.head _)).trans h.1, ih h.2 fun z hz => ?_⟩
    exact hp z (.tail x hz)

theorem append_cons {a : ℕ} : Path ptr x (l₁ ++ a :: l₂) y ↔ Path ptr x l₁ a ∧ Path ptr a l₂ y := by
  induction l₁ generalizing x with
  | nil => exact Iff.rfl
  | cons c l₁ ih => simp only [cons_append, Path, ih, and_assoc]

theorem left (h : Path ptr x (l₁ ++ l₂) y) : Path ptr x l₁ (ptr (l₁.getLastD x)) := by
  induction l₁ generalizing x with
  | nil => rfl
  | cons a l₁ ih =>
    rw [getLastD_cons]
    exact ⟨h.1, ih h.2⟩

theorem right (h : Path ptr x (l₁ ++ l₂) y) : Path ptr (l₁.getLastD x) l₂ y := by
  induction l₁ generalizing x with
  | nil => exact h
  | cons a l₁ ih =>
    rw [getLastD_cons]
    exact ih h.2

theorem same (h : Path ptr x l y) (hw : ptr' w = ptr x) (hp : ∀ z ∈ l, ptr' z = ptr z) :
    Path ptr' w l y := by
  cases l with
  | nil => exact hw.trans h
  | cons a l => exact ⟨hw.trans h.1, h.2.congr hp⟩

theorem relink (h : Path ptr x l₁ y) (hn : (x :: l₁).Nodup)
    (hp : ∀ v ∈ x :: l₁, v ≠ l₁.getLastD x → ptr' v = ptr v)
    (h2 : Path ptr' (l₁.getLastD x) l₂ z) : Path ptr' x (l₁ ++ l₂) z := by
  induction l₁ generalizing x with
  | nil => exact h2
  | cons a l₁ ih =>
    rw [getLastD_cons] at hp h2
    have hmem : l₁.getLastD a ∈ a :: l₁ := getLastD_mem_cons
    refine ⟨(hp x (.head _) fun hc => ?_).trans h.1, ih h.2 (nodup_cons.mp hn).2
      (fun v hv => hp v (.tail x hv)) h2⟩
    exact (nodup_cons.mp hn).1 (hc ▸ hmem)

theorem suffix (h : Path ptr x (l₁ ++ l₂) y) (hz : z ∈ x :: l₁) :
    ∃ l, Path ptr z (l ++ l₂) y ∧ (z :: l) <:+ (x :: l₁) ∧ l.getLastD z = l₁.getLastD x := by
  induction l₁ generalizing x with
  | nil =>
    obtain rfl := mem_singleton.mp hz
    exact ⟨[], h, suffix_refl _, rfl⟩
  | cons a l₁ ih =>
    rcases mem_cons.mp hz with rfl | hz
    · exact ⟨a :: l₁, h, suffix_refl _, rfl⟩
    · obtain ⟨l, hl, hsuf, hlast⟩ := ih h.2 hz
      refine ⟨l, hl, hsuf.trans (suffix_cons x _), ?_⟩
      rw [hlast, getLastD_cons]

end Path

theorem place_low (fuel : ℕ) : ∀ x l₁, Path h.ptr x (l₁ ++ l₂) base → x < bp → (∀ a ∈ l₁, a < bp) →
    (∀ a ∈ l₂, bp < a) → base ≤ x → (x :: l₁).Pairwise (· < ·) → l₁.length < fuel →
    h.place bp fuel x = some (l₁.getLastD x) := by
  induction fuel with
  | zero => exact fun _ _ _ _ _ _ _ _ hf => absurd hf (Nat.not_lt_zero _)
  | succ fuel ih =>
    intro x l₁ hpath hx h1 h2 hbase hinc hf
    unfold Heap.place
    cases l₁ with
    | nil =>
      rw [if_pos, getLastD_nil]
      cases l₂ with
      | nil =>
        have hp : h.ptr x = base := hpath
        omega
      | cons c l₂ =>
        have hp : h.ptr x = c := hpath.1
        have := h2 c (.head _)
        omega
    | cons c l₁ =>
      have hp : h.ptr x = c := hpath.1
      have hc := h1 c (.head _)
      have hxc := rel_of_pairwise_cons hinc (.head _)
      rw [if_neg (by omega), hp, getLastD_cons]
      exact ih c l₁ hpath.2 hc (fun a ha => h1 a (.tail c ha)) h2 (by omega)
        (pairwise_cons.mp hinc).2 (Nat.lt_of_succ_lt_succ hf)

theorem place_high (fuel : ℕ) (l : List ℕ) : ∀ x, Path h.ptr x l base → bp < x → base < bp →
    (x :: l).Pairwise (· < ·) → h.place bp (fuel + (l.length + 1)) x = h.place bp fuel base := by
  induction l with
  | nil =>
    intro x hpath hx hbase _
    have hp : h.ptr x = base := hpath
    change h.place bp (fuel + 0 + 1) x = _
    rw [Heap.place, if_neg (by omega), hp]
  | cons c l ih =>
    intro x hpath hx hbase hinc
    have hp : h.ptr x = c := hpath.1
    have hxc := rel_of_pairwise_cons hinc (.head _)
    change h.place bp (fuel + (l.length + 1) + 1) x = _
    rw [Heap.place, if_neg (by omega), hp]
    exact ih c hpath.2 (by omega) hbase (pairwise_cons.mp hinc).2

/-- The search ends at the last node below the block, wherever it begins. -/
theorem place_spec {fuel : ℕ} (hpath : Path h.ptr base (l₁ ++ l₂) base) (h1 : ∀ a ∈ l₁, a < bp)
    (h2 : ∀ a ∈ l₂, bp < a) (hbase : base < bp) (hinc : (base :: (l₁ ++ l₂)).Pairwise (· < ·))
    (hx : x ∈ base :: (l₁ ++ l₂)) (hf : 2 * (l₁ ++ l₂).length + 2 ≤ fuel) :
    h.place bp fuel x = some (l₁.getLastD base) := by
  have hsub : (base :: l₁).Sublist (base :: (l₁ ++ l₂)) :=
    (sublist_append_left l₁ l₂).cons_cons base
  have hinc1 := hinc.sublist hsub
  rw [length_append] at hf
  by_cases hlow : x ∈ base :: l₁
  · obtain ⟨l, hl, hsuf, hlast⟩ := hpath.suffix hlow
    have hlen := hsuf.length_le
    simp only [length_cons] at hlen
    have hmem : ∀ a ∈ x :: l, a ∈ base :: l₁ := fun a ha => hsuf.mem ha
    have hle : ∀ a ∈ base :: l₁, base ≤ a ∧ a < bp := by
      intro a ha
      rcases mem_cons.mp ha with rfl | ha
      · exact ⟨le_rfl, hbase⟩
      · exact ⟨(rel_of_pairwise_cons hinc1 ha).le, h1 a ha⟩
    rw [← hlast]
    exact place_low fuel x l hl (hle x (hmem x (.head _))).2
      (fun a ha => (hle a (hmem a (.tail x ha))).2) h2
      (hle x (hmem x (.head _))).1 (hinc1.sublist hsuf.sublist) (by omega)
  · have hx2 : x ∈ l₂ := by
      rcases mem_cons.mp hx with hc | hc
      · exact absurd (hc ▸ (.head _)) hlow
      · exact (mem_append.mp hc).resolve_left fun hc => hlow (.tail base hc)
    obtain ⟨A, B, hAB⟩ := append_of_mem hx2
    have hpath' := hpath
    rw [hAB, ← append_assoc] at hpath'
    have hsuf : (x :: B) <:+ (base :: (l₁ ++ l₂)) := by
      rw [hAB]
      exact ⟨base :: (l₁ ++ A), by simp⟩
    have hlen : B.length < l₂.length := by
      rw [hAB, length_append, length_cons]
      omega
    obtain ⟨k, rfl⟩ : ∃ k, fuel = k + (B.length + 1) := ⟨fuel - (B.length + 1), by omega⟩
    rw [place_high k B x (Path.append_cons.mp hpath').2 (h2 x hx2) hbase
      (hinc.sublist hsuf.sublist)]
    exact place_low k base l₁ hpath hbase h1 h2 le_rfl hinc1 (by omega)

/-- There is room between the end of block `a` and block `b`. -/
def Gap (size : ℕ → ℕ) (a b : ℕ) : Prop := a + hdr * size a < b

def Heap.total (h : Heap) : ℕ := (h.regions.map Prod.snd).sum

/-- The free list is `base` and the blocks `fl`; the blocks `live` are in use. -/
structure Heap.Ok (base : ℕ) (h : Heap) (fl live : List ℕ) : Prop where
  path : Path h.ptr base fl base
  gaps : (base :: fl).Pairwise (Gap h.size)
  zero : h.size base = 0
  rover : h.freep ∈ base :: fl
  tiling : Tiling h.size (fl ++ live) h.regions
  above : ∀ a ∈ fl ++ live, base < a
  below : ∀ a ∈ fl ++ live, a + hdr * h.size a ≤ h.top
  room : base < h.top

theorem gaps_lt (h : l.Pairwise (Gap size)) : l.Pairwise (· < ·) :=
  h.imp fun hab => (Nat.le_add_right _ _).trans_lt hab

theorem Heap.Ok.divide (h : Heap.Ok base h' fl (bp :: live)) : ∃ l₁ l₂, fl = l₁ ++ l₂ ∧
    (∀ a ∈ l₁, a + hdr * h'.size a ≤ bp) ∧ ∀ a ∈ l₂, bp + hdr * h'.size bp ≤ a := by
  have hapart : ∀ a ∈ fl, Apart h'.size bp a := by
    have ht := h.tiling.perm (perm_middle)
    exact fun a ha => rel_of_pairwise_cons ht.apart (mem_append_left live ha)
  have hinc := (pairwise_cons.mp h.gaps).2
  have hpos := h.tiling.pos bp (by simp)
  clear h
  induction fl with
  | nil => exact ⟨[], [], rfl, by simp, by simp⟩
  | cons c fl ih =>
    by_cases hc : c + hdr * h'.size c ≤ bp
    · obtain ⟨l₁, l₂, hfl, hl, hr⟩ := ih (fun a ha => hapart a (.tail c ha))
        (pairwise_cons.mp hinc).2
      refine ⟨c :: l₁, l₂, by rw [hfl]; rfl, fun a ha => ?_, hr⟩
      rcases mem_cons.mp ha with rfl | ha
      · exact hc
      · exact hl a ha
    · have hbc := (hapart c (.head _)).resolve_right hc
      refine ⟨[], c :: fl, rfl, by simp, fun a ha => ?_⟩
      rcases mem_cons.mp ha with rfl | ha
      · exact hbc
      · exact hbc.trans ((Nat.le_add_right _ _).trans (rel_of_pairwise_cons hinc ha).le)

structure JoinedNext (base bp : ℕ) (h : Heap) (l₁ l₂ live : List ℕ) (h' : Heap) (l₂' : List ℕ) :
    Prop where
  path : Path h'.ptr bp l₂' base
  ptr : ∀ a, a ≠ bp → h'.ptr a = h.ptr a
  size : ∀ a, a ≠ bp → h'.size a = h.size a
  grows : h.size bp ≤ h'.size bp
  sub : l₂'.Sublist l₂
  gap : ∀ a ∈ l₂', Gap h'.size bp a
  tiling : Tiling h'.size (bp :: (l₁ ++ l₂' ++ live)) h.regions
  top : h'.top = h.top
  regions : h'.regions = h.regions
  below : bp + hdr * h'.size bp ≤ h.top

theorem joinNext_spec (hok : h.Ok base (l₁ ++ l₂) (bp :: live)) (htotal : h.total < 2 ^ 32)
    (h2 : ∀ a ∈ l₂, bp + hdr * h.size bp ≤ a) :
    ∃ l₂', JoinedNext base bp h l₁ l₂ live (h.joinNext bp (l₁.getLastD base)) l₂' := by
  have hright := hok.path.right
  have htil : Tiling h.size (bp :: (l₁ ++ l₂ ++ live)) h.regions :=
    hok.tiling.perm perm_middle
  have hbp : base < bp := hok.above bp (by simp)
  have hbelow := hok.below bp (by simp)
  have hnot := htil.not_mem
  have hinc := gaps_lt (pairwise_cons.mp hok.gaps).2
  unfold Heap.joinNext
  cases l₂ with
  | nil =>
    have hp : h.ptr (l₁.getLastD base) = base := hright
    rw [hp, if_neg (by omega)]
    refine ⟨[], ?_, fun a ha => ?_, fun _ _ => rfl, le_rfl, List.Sublist.refl _, by simp, htil, rfl,
      rfl, hbelow⟩
    · simp [Path]
    · simp [ha]
  | cons c l₂ =>
    have hp : h.ptr (l₁.getLastD base) = c := hright.1
    have hc := h2 c (.head _)
    have hcb : c ≠ bp := by
      rintro rfl
      exact hnot (by simp)
    have hrest : ∀ a ∈ l₂, a ≠ bp := by
      rintro a ha rfl
      exact hnot (by simp [ha])
    have hgapc : ∀ a ∈ l₂, Gap h.size c a := by
      have hg := (pairwise_append.mp (pairwise_cons.mp hok.gaps).2).2.1
      exact fun a ha => rel_of_pairwise_cons hg ha
    rw [hp]
    by_cases hjoin : bp + hdr * h.size bp = c
    · rw [if_pos hjoin]
      have hperm : Tiling h.size (bp :: c :: (l₁ ++ l₂ ++ live)) h.regions := by
        refine htil.perm (List.Perm.cons bp ?_)
        rw [append_assoc, append_assoc, cons_append]
        exact perm_middle
      have hsum : (h.size bp + h.size c) % 2 ^ 32 = h.size bp + h.size c :=
        Nat.mod_eq_of_lt (hperm.size_add_le.trans_lt htotal)
      have hself : ((h.setSize bp (h.size bp + h.size c)).setPtr bp (h.ptr c)).size bp =
          h.size bp + h.size c := by
        rw [Heap.setPtr_size, Heap.setSize_size, update_self, hsum]
      refine ⟨l₂, ?_, fun a ha => by simp [ha], fun a ha => by simp [ha], by omega,
        sublist_cons_self c l₂, fun a ha => ?_, ?_, rfl, rfl, ?_⟩
      · refine hright.2.same (by simp) fun z hz => ?_
        simp [hrest z hz]
      · have hg := hgapc a ha
        unfold Gap at hg ⊢
        rw [hself]
        simp only [hdr] at *
        omega
      · refine hperm.join hjoin (fun a ha => ?_) hself
        have hne : a ≠ bp := by
          rintro rfl
          apply hnot
          simp only [mem_append, mem_cons] at ha ⊢
          tauto
        simp [hne]
      · have hcb' := hok.below c (by simp)
        rw [hself]
        simp only [hdr] at *
        omega
    · rw [if_neg hjoin]
      refine ⟨c :: l₂, ⟨by simp, ?_⟩, fun a ha => by simp [ha], fun _ _ => rfl, le_rfl,
        List.Sublist.refl _, fun a ha => ?_, htil, rfl, rfl, hbelow⟩
      · refine hright.2.congr fun z hz => ?_
        rcases mem_cons.mp hz with rfl | hz
        · simp [hcb]
        · simp [hrest z hz]
      · have hlt : bp + hdr * h.size bp < c := lt_of_le_of_ne hc hjoin
        rcases mem_cons.mp ha with rfl | ha
        · exact hlt
        · exact hlt.trans ((Nat.le_add_right _ _).trans_lt (hgapc a ha))

/-- What `free` leaves: one block of the free list contains the block `bp`, and the others were free
before. -/
structure Freed (base bp : ℕ) (h : Heap) (fl live : List ℕ) (h' : Heap) (fl' : List ℕ) : Prop where
  ok : h'.Ok base fl' live
  size : ∀ a ∈ live, h'.size a = h.size a
  found : ∃ a ∈ fl', h.size bp ≤ h'.size a
  free : ∀ a ∈ fl', (a ∈ fl ∧ h'.size a = h.size a) ∨
    bp + hdr * h.size bp ≤ a + hdr * h'.size a
  regions : h'.regions = h.regions
  top : h'.top = h.top

theorem last_gap (hg : (base :: l₁).Pairwise (Gap size)) {a : ℕ} (ha : a ∈ base :: l₁) :
    a = l₁.getLastD base ∨ Gap size a (l₁.getLastD base) := by
  induction l₁ generalizing base with
  | nil => exact .inl (mem_singleton.mp ha)
  | cons c l₁ ih =>
    rw [getLastD_cons]
    rcases mem_cons.mp ha with rfl | ha
    · exact .inr (rel_of_pairwise_cons hg getLastD_mem_cons)
    · exact ih (pairwise_cons.mp hg).2 ha

/-- The blocks below `bp` when it is not joined to the last of them. -/
theorem gap_below (hg : (base :: l₁).Pairwise (Gap size)) (hlast : Gap size (l₁.getLastD base) bp)
    {a : ℕ} (ha : a ∈ base :: l₁) : Gap size a bp := by
  rcases last_gap hg ha with rfl | hgap
  · exact hlast
  · exact hgap.trans ((Nat.le_add_right _ _).trans_lt hlast)

namespace JoinedNext
variable {h' : Heap} {l₂' : List ℕ}

theorem low_ne (hj : JoinedNext base bp h l₁ l₂ live h' l₂')
    (hok : h.Ok base (l₁ ++ l₂) (bp :: live)) : ∀ a ∈ base :: l₁, a ≠ bp := by
  intro a ha
  rcases mem_cons.mp ha with rfl | ha
  · have := hok.above bp (by simp)
    omega
  · rintro rfl
    exact hj.tiling.not_mem (by simp [ha])

theorem high_gt (hj : JoinedNext base bp h l₁ l₂ live h' l₂') : ∀ a ∈ l₂', bp < a :=
  fun a ha => (Nat.le_add_right _ _).trans_lt (hj.gap a ha)

theorem gaps_low (hok : h.Ok base (l₁ ++ l₂) live) : (base :: l₁).Pairwise (Gap h.size) :=
  hok.gaps.sublist ((sublist_append_left l₁ l₂).cons_cons base)

variable (hj : JoinedNext base bp h l₁ l₂ live h' l₂') (hok : h.Ok base (l₁ ++ l₂) (bp :: live))
include hj hok

theorem gaps_high : l₂'.Pairwise (Gap h'.size) := by
  have hg := (pairwise_append.mp (pairwise_cons.mp hok.gaps).2).2.1.sublist hj.sub
  refine List.Pairwise.imp_of_mem (fun {a b} ha _ hab => ?_) hg
  rw [Gap, hj.size a (hj.high_gt a ha).ne']
  exact hab

theorem above : ∀ a ∈ bp :: (l₁ ++ l₂' ++ live), base < a ∧ a + hdr * h'.size a ≤ h.top := by
  intro a ha
  by_cases hab : a = bp
  · exact ⟨hab ▸ hok.above bp (by simp), hab ▸ hj.below⟩
  have hmem : a ∈ l₁ ++ l₂ ++ bp :: live := by
    have hsub := hj.sub.subset
    simp only [mem_cons, mem_append] at ha ⊢
    rcases ha with ha | (ha | ha) | ha
    · exact absurd ha hab
    · exact .inl (.inl ha)
    · exact .inl (.inr (hsub ha))
    · exact .inr (.inr ha)
  rw [hj.size a hab]
  exact ⟨hok.above a hmem, hok.below a hmem⟩

end JoinedNext

theorem joinPrev_apart {h' : Heap} {l₂' : List ℕ} (hok : h.Ok base (l₁ ++ l₂) (bp :: live))
    (hj : JoinedNext base bp h l₁ l₂ live h' l₂') (h1 : ∀ a ∈ l₁, a + hdr * h.size a ≤ bp)
    (hne : ¬ l₁.getLastD base + hdr * h'.size (l₁.getLastD base) = bp) :
    Freed base bp h (l₁ ++ l₂) live ((h'.setPtr (l₁.getLastD base) bp).setFreep (l₁.getLastD base))
      (l₁ ++ bp :: l₂') := by
  have hlow := hj.low_ne hok
  have hhigh := hj.high_gt
  have habove := hj.above hok
  have hg1 := JoinedNext.gaps_low hok
  have hmem : l₁.getLastD base ∈ base :: l₁ := getLastD_mem_cons
  have hlast : Gap h.size (l₁.getLastD base) bp := by
    rw [hj.size _ (hlow _ hmem)] at hne
    rcases mem_cons.mp hmem with hb | hb
    · rw [hb, Gap, hok.zero]
      exact hok.above bp (by simp)
    · exact lt_of_le_of_ne (h1 _ hb) hne
  have hgap : ∀ a ∈ base :: l₁, Gap h'.size a bp := by
    intro a ha
    rw [Gap, hj.size a (hlow a ha)]
    exact gap_below hg1 hlast ha
  have hperm : (bp :: (l₁ ++ l₂' ++ live)).Perm (l₁ ++ bp :: l₂' ++ live) := by
    rw [append_assoc, append_assoc, cons_append]
    exact perm_middle.symm
  refine ⟨⟨?_, ?_, ?_, ?_, ?_, fun a ha => ?_, fun a ha => ?_, ?_⟩, fun a ha => ?_,
    ⟨bp, by simp, hj.grows⟩, fun a ha => ?_, hj.regions, hj.top⟩
  · refine hok.path.left.relink (gaps_lt hg1).nodup (fun v hv hvl => ?_) ⟨by simp, ?_⟩
    · rw [Heap.setFreep_ptr, Heap.setPtr_ptr, update_of_ne hvl, hj.ptr v (hlow v hv)]
    · refine hj.path.congr fun z hz => ?_
      have hzp : z ≠ l₁.getLastD base := by
        have hlt : l₁.getLastD base < bp := (Nat.le_add_right _ _).trans_lt hlast
        rcases mem_cons.mp hz with rfl | hz
        · exact hlt.ne'
        · exact (hlt.trans (hhigh z hz)).ne'
      rw [Heap.setFreep_ptr, Heap.setPtr_ptr, update_of_ne hzp]
  · change (base :: l₁ ++ bp :: l₂').Pairwise (Gap h'.size)
    refine pairwise_append.mpr ⟨?_, pairwise_cons.mpr ⟨hj.gap, hj.gaps_high hok⟩, ?_⟩
    · refine List.Pairwise.imp_of_mem (fun {a b} ha _ hab => ?_) hg1
      rw [Gap, hj.size a (hlow a ha)]
      exact hab
    · intro a ha b hb
      rcases mem_cons.mp hb with rfl | hb
      · exact hgap a ha
      · exact (hgap a ha).trans (hhigh b hb)
  · exact (hj.size base (hlow base (.head _))).trans hok.zero
  · change l₁.getLastD base ∈ base :: l₁ ++ bp :: l₂'
    exact mem_append_left _ hmem
  · change Tiling h'.size _ h'.regions
    rw [hj.regions]
    exact hj.tiling.perm hperm
  · exact (habove a (hperm.mem_iff.mpr ha)).1
  · change a + hdr * h'.size a ≤ h'.top
    rw [hj.top]
    exact (habove a (hperm.mem_iff.mpr ha)).2
  · change base < h'.top
    rw [hj.top]
    exact hok.room
  · refine hj.size a ?_
    rintro rfl
    exact hj.tiling.not_mem (mem_append_right _ ha)
  · by_cases hab : a = bp
    · subst hab
      exact .inr (Nat.add_le_add_left (Nat.mul_le_mul_left hdr hj.grows) a)
    · have hsub := hj.sub.subset
      refine .inl ⟨?_, hj.size a hab⟩
      simp only [mem_append, mem_cons] at ha ⊢
      tauto

theorem joinPrev_join {h' : Heap} {l₂' : List ℕ} (hok : h.Ok base (l₁ ++ l₂) (bp :: live))
    (htotal : h.total < 2 ^ 32) (hj : JoinedNext base bp h l₁ l₂ live h' l₂')
    (heq : l₁.getLastD base + hdr * h'.size (l₁.getLastD base) = bp) :
    Freed base bp h (l₁ ++ l₂) live (((h'.setSize (l₁.getLastD base) (h'.size (l₁.getLastD base) +
      h'.size bp)).setPtr (l₁.getLastD base) (h'.ptr bp)).setFreep (l₁.getLastD base))
        (l₁ ++ l₂') := by
  have hlow := hj.low_ne hok
  have hhigh := hj.high_gt
  have habove := hj.above hok
  have hg1 := JoinedNext.gaps_low hok
  have hmem : l₁.getLastD base ∈ base :: l₁ := getLastD_mem_cons
  generalize hp : l₁.getLastD base = p at *
  have hpb : p ≠ base := by
    rintro rfl
    rw [hj.size p (hlow p (.head _)), hok.zero] at heq
    have := hok.above bp (by simp)
    omega
  have hp1 : p ∈ l₁ := (mem_cons.mp hmem).resolve_left hpb
  obtain ⟨A, B, hAB⟩ := append_of_mem hp1
  have hperm : (bp :: (l₁ ++ l₂' ++ live)).Perm (p :: bp :: (A ++ B ++ l₂' ++ live)) := by
    rw [hAB]
    refine (List.Perm.cons bp ?_).trans (List.Perm.swap p bp _)
    simp only [append_assoc, cons_append]
    exact perm_middle
  have htil := hj.tiling.perm hperm
  have hsum : (h'.size p + h'.size bp) % 2 ^ 32 = h'.size p + h'.size bp :=
    Nat.mod_eq_of_lt (htil.size_add_le.trans_lt htotal)
  have hnot := htil.not_mem
  have hsize : ∀ a ≠ p, a ≠ bp → (((h'.setSize p (h'.size p + h'.size bp)).setPtr p
      (h'.ptr bp)).setFreep p).size a = h.size a := by
    intro a hap hab
    rw [Heap.setFreep_size, Heap.setPtr_size, Heap.setSize_size, update_of_ne hap, hj.size a hab]
  have hself : (((h'.setSize p (h'.size p + h'.size bp)).setPtr p (h'.ptr bp)).setFreep p).size p =
      h'.size p + h'.size bp := by
    rw [Heap.setFreep_size, Heap.setPtr_size, Heap.setSize_size, update_self, hsum]
  have hpbp : p < bp := by
    have := htil.pos p (.head _)
    simp only [hdr] at *
    omega
  have hback : (p :: (A ++ B ++ l₂' ++ live)).Perm (l₁ ++ l₂' ++ live) := by
    rw [hAB]
    simp only [append_assoc, cons_append]
    exact perm_middle.symm
  have hnew : Tiling
      (((h'.setSize p (h'.size p + h'.size bp)).setPtr p (h'.ptr bp)).setFreep p).size
      (p :: (A ++ B ++ l₂' ++ live)) h.regions := by
    refine htil.join heq (fun a ha => ?_) hself
    have hap : a ≠ p := by
      rintro rfl
      exact hnot (.tail _ ha)
    rw [Heap.setFreep_size, Heap.setPtr_size, Heap.setSize_size, update_of_ne hap]
  have hends : ∀ a ∈ l₁ ++ l₂' ++ live, base < a ∧ a + hdr * (((h'.setSize p (h'.size p +
      h'.size bp)).setPtr p (h'.ptr bp)).setFreep p).size a ≤ h.top := by
    intro a ha
    obtain ⟨hlo, hhi⟩ := habove a (.tail bp ha)
    refine ⟨hlo, ?_⟩
    by_cases hap : a = p
    · have := hj.below
      rw [hap, hself]
      simp only [hdr] at *
      omega
    · rwa [Heap.setFreep_size, Heap.setPtr_size, Heap.setSize_size, update_of_ne hap]
  refine ⟨⟨?_, ?_, ?_, ?_, ?_, fun a ha => (hends a ha).1, fun a ha => ?_, ?_⟩, fun a ha => ?_,
    ⟨p, mem_append_left _ hp1, ?_⟩, fun a ha => ?_, hj.regions, hj.top⟩
  · refine hok.path.left.relink (gaps_lt hg1).nodup (fun v hv hvl => ?_) ?_
    · rw [hp] at hvl
      rw [Heap.setFreep_ptr, Heap.setPtr_ptr, update_of_ne hvl]
      exact hj.ptr v (hlow v hv)
    · rw [hp]
      refine hj.path.same (by simp) fun z hz => ?_
      have hzp : z ≠ p := (hpbp.trans (hhigh z hz)).ne'
      rw [Heap.setFreep_ptr, Heap.setPtr_ptr, update_of_ne hzp]
      rfl
  · rw [← cons_append]
    refine pairwise_append.mpr ⟨?_, ?_, fun a ha b hb => ?_⟩
    · refine List.Pairwise.imp_of_mem (fun {a b} ha hb hab => ?_) hg1
      have hap : a ≠ p := by
        rintro rfl
        rcases last_gap hg1 hb with hb' | hb'
        · rw [hb', hp] at hab
          unfold Gap at hab
          omega
        · rw [hp] at hb'
          unfold Gap at hab hb'
          omega
      rw [Gap, hsize a hap (hlow a ha)]
      exact hab
    · refine List.Pairwise.imp_of_mem (fun {a b} ha hb hab => ?_) (hj.gaps_high hok)
      have hap : a ≠ p := (hpbp.trans (hhigh a ha)).ne'
      rw [Gap, hsize a hap (hhigh a ha).ne', ← hj.size a (hhigh a ha).ne']
      exact hab
    · by_cases hap : a = p
      · have hg := hj.gap b hb
        rw [hap]
        unfold Gap at hg ⊢
        rw [hself]
        simp only [hdr] at *
        omega
      · rw [Gap, hsize a hap (hlow a ha)]
        have hg := (last_gap hg1 ha).resolve_left (by rwa [hp])
        rw [hp] at hg
        exact hg.trans (hpbp.trans (hhigh b hb))
  · exact (hsize base hpb.symm (hlow base (.head _))).trans hok.zero
  · change p ∈ base :: (l₁ ++ l₂')
    exact mem_cons_of_mem _ (mem_append_left _ hp1)
  · change Tiling _ _ h'.regions
    rw [hj.regions]
    exact hnew.perm hback
  · change _ ≤ h'.top
    rw [hj.top]
    exact (hends a ha).2
  · change base < h'.top
    rw [hj.top]
    exact hok.room
  · refine hsize a ?_ ?_
    · rintro rfl
      exact hnot (by simp [ha])
    · rintro rfl
      exact hj.tiling.not_mem (mem_append_right _ ha)
  · rw [hself]
    exact hj.grows.trans (Nat.le_add_left _ _)
  · by_cases hap : a = p
    · have := Nat.mul_le_mul_left hdr hj.grows
      rw [hap, hself, Nat.mul_add]
      exact .inr (by omega)
    · have hsub := hj.sub.subset
      refine .inl ⟨?_, hsize a hap ?_⟩
      · simp only [mem_append] at ha ⊢
        tauto
      · rintro rfl
        exact hj.tiling.not_mem (mem_append_left live ha)

theorem free_spec (hok : h.Ok base fl (bp :: live)) (htotal : h.total < 2 ^ 32) :
    ∃ h' fl', (∀ fuel, 2 * fl.length + 2 ≤ fuel → h.free fuel (bp + hdr) = some h') ∧
      Freed base bp h fl live h' fl' := by
  obtain ⟨l₁, l₂, rfl, h1, h2⟩ := hok.divide
  have hpos := hok.tiling.pos
  have hbp := hpos bp (by simp)
  have hplace fuel (hf : 2 * (l₁ ++ l₂).length + 2 ≤ fuel) : h.place bp fuel h.freep = some
      (l₁.getLastD base) := by
    refine place_spec hok.path (fun a ha => ?_) (fun a ha => ?_) (hok.above bp (by simp))
      (gaps_lt hok.gaps) hok.rover hf
    · have := h1 a ha
      have := hpos a (by simp [ha])
      simp only [hdr] at *
      omega
    · have := h2 a ha
      simp only [hdr] at *
      omega
  obtain ⟨l₂', hj⟩ := joinNext_spec hok htotal h2
  refine ⟨((h.joinNext bp (l₁.getLastD base)).joinPrev bp (l₁.getLastD base)).setFreep
    (l₁.getLastD base), ?_⟩
  rw [Heap.joinPrev]
  by_cases heq : l₁.getLastD base + hdr * (h.joinNext bp (l₁.getLastD base)).size
      (l₁.getLastD base) = bp
  · refine ⟨l₁ ++ l₂', fun fuel hf => ?_, ?_⟩
    · rw [Heap.free, Nat.add_sub_cancel, hplace fuel hf, Option.map_some, Heap.joinPrev]
    · rw [if_pos heq]
      exact joinPrev_join hok htotal hj heq
  · refine ⟨l₁ ++ bp :: l₂', fun fuel hf => ?_, ?_⟩
    · rw [Heap.free, Nat.add_sub_cancel, hplace fuel hf, Option.map_some, Heap.joinPrev]
    · rw [if_neg heq]
      exact joinPrev_apart hok hj h1 heq

end Xv6.Umalloc
