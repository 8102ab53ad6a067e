import Xv6.Virtio.Inv

/-! Every step keeps the invariant of the driver. -/
namespace Xv6.Virtio
open Function List
attribute [local simp] Pos.idx
variable {P B : Type} {s : State P B} {pend done : List ℕ} {p q : P} {i : ℕ}

theorem num_lt : num < 2 ^ 16 := by decide

theorem num_dvd : num ∣ 2 ^ 16 := ⟨2 ^ 13, by decide⟩

private theorem lock_other (hl : s.lock = some (.proc p)) (hq : q ≠ p) :
    s.lock ≠ some (.proc q) := by
  rw [hl]
  intro h
  cases h
  exact hq rfl

private theorem buf_ne {b b' : B} (hb : s.holder b = some p) (hb' : s.holder b' = some q)
    (hq : q ≠ p) : b' ≠ b := by grind

theorem inv_init : Inv (State.init : State P B) [] [] where
  calm := rfl
  proc p h := by cases h
  held := .init fun i hi => by
    obtain ⟨hlt, hf⟩ := hi
    simp [State.init, hlt] at hf
  avail := .init _
  used := .init _
  heads := ⟨nodup_nil, fun i => by simp [State.init, Pos.waits]⟩
  status i hi := absurd hi not_mem_nil
  completed i hi := absurd hi not_mem_nil

theorem inv_intr (h : Inv s pend done) {l : Option (Holder P)} (hl : ∀ q, s.lock ≠ some (.proc q))
    (hl' : ∀ q, l ≠ some (.proc q)) : Inv (s.setLock l) pend done := by
  refine h.quiet rfl rfl rfl rfl rfl rfl rfl rfl (fun q => rfl) (fun q => rfl) fun q => ?_
  exact (h.proc q).frame (iff_of_false (hl' q) (hl q)) (fun b hb => ⟨hb, rfl⟩) (fun r hr => hr)
    (fun _ => rfl) (fun i _ hi => hi)

theorem inv_setHolder [DecidableEq B] (h : Inv s pend done) {b : B} (x : Option P)
    (hb : ∀ q, s.pos q = .idle ∨ s.holder b ≠ some q) : Inv (s.setHolder b x) pend done := by
  refine h.quiet rfl rfl rfl rfl rfl rfl rfl rfl (fun q => rfl) (fun q => rfl) fun q => ?_
  rcases hb q with hq | hq
  · grind
  refine (h.proc q).frame Iff.rfl (fun b' hb' => ⟨?_, rfl⟩) (fun r hr => hr) (fun _ => rfl)
    (fun i _ hi => hi)
  have hne : b' ≠ b := by
    rintro rfl
    exact hq hb'
  rw [State.setHolder_holder, update_of_ne hne]
  exact hb'

section Proc
variable [DecidableEq P]

/-- A process enters or leaves the critical section, with nothing else changed. -/
theorem inv_setLock (h : Inv s pend done) {x : Pos B} {l : Option (Holder P)}
    (hidx : x.idx = (s.pos p).idx) (hwaits : x.waits s.bufDisk = (s.pos p).waits s.bufDisk)
    (hl : s.lock = none ∨ s.lock = some (.proc p)) (hl' : l = none ∨ l = some (.proc p))
    (hx : ProcOk ((s.setPos p x).setLock l) p x) : Inv ((s.setPos p x).setLock l) pend done := by
  refine h.quiet rfl rfl rfl rfl rfl rfl rfl rfl (pos_update Pos.idx hidx)
    (pos_update (Pos.waits s.bufDisk) hwaits) (proc_update h.proc rfl hx fun q hq hok => ?_)
  have hs : s.lock ≠ some (.proc q) := by grind
  have ht : ((s.setPos p x).setLock l).lock ≠ some (.proc q) := by grind
  exact hok.frame (iff_of_false ht hs) (fun b hb => ⟨hb, rfl⟩) (fun r hr => hr) (fun _ => rfl)
    (fun i _ hi => hi)

variable {r : Req B} {idx : List ℕ}
variable (h : Inv s pend done)
include h

theorem inv_allocSleep (hp : s.pos p = .alloc r)
    (hl : s.lock = some (.proc p)) (hd : s.disk.Taken idx) :
    Inv (((s.setDisk ((s.disk.taken idx).released idx)).setPos p (.allocSleep r)).setLock none)
      pend done := by
  have hok := h.proc p
  rw [hp] at hok
  have hfree : ((s.disk.taken idx).released idx).free = s.disk.free := by
    funext i
    by_cases hi : i ∈ idx
    · simp [hi, (hd.mem i hi).2]
    · simp [hi]
  refine h.quiet rfl rfl rfl rfl rfl rfl rfl hfree
    (pos_update Pos.idx (by rw [State.setDisk_pos, hp]; rfl))
    (pos_update (Pos.waits s.bufDisk) (by rw [State.setDisk_pos, hp]; rfl))
    (proc_update h.proc rfl ?_ fun q hq hq' => ?_)
  · exact ⟨nofun, hok.2⟩
  · refine hq'.frame (iff_of_false nofun (lock_other hl hq)) (fun b hb => ⟨hb, rfl⟩)
      (fun r' hr => ?_) (fun _ => rfl) (fun i _ hi => hi)
    refine hr.congr (fun _ _ => rfl) (fun i hi => ?_) (fun _ _ => rfl)
    -- what was taken for a moment was free before
    have hni : i ∉ idx := by
      intro hm
      have := (h.held.live_of_mem q i hi).2
      rw [(hd.mem i hm).2] at this
      cases this
    exact if_neg hni

theorem inv_alloc (hp : s.pos p = .alloc r) (hl : s.lock = some (.proc p))
    (hd : s.disk.Taken idx) (h3 : idx.length = 3) :
    Inv ((s.setDisk (s.disk.taken idx)).setPos p (.owns .format r idx)) pend done where
  calm := h.calm
  proc := by
    have hok := h.proc p
    rw [hp] at hok
    refine proc_update h.proc rfl ?_ fun q hq hq' => ?_
    · exact ⟨iff_of_true hl (by simp), hok.2, h3, fun hn => absurd rfl hn, nofun, fun hn => hn.elim⟩
    · exact hq'.frame Iff.rfl (fun b hb => ⟨hb, rfl⟩) (fun r hr => hr.congr (fun _ _ => rfl)
        (fun _ _ => rfl) fun _ _ => rfl) (fun _ => rfl) (fun i _ hi => hi)
  held := by
    refine h.held.take (p := p) (l := idx) (by rw [hp]; rfl) hd.nodup (fun i hi hn => ?_)
      (by simp) (fun q hq => by simp [hq]) fun i => ?_
    · rw [(hd.mem i hi).2] at hn
      cases hn.2
    · grind
  avail := h.avail
  used := h.used
  heads := by
    have hw : ∀ q, (update s.pos p (.owns .format r idx) q).waits s.bufDisk =
        (s.pos q).waits s.bufDisk :=
      pos_update (Pos.waits s.bufDisk) (by rw [hp]; cases idx <;> rfl)
    simp only [State.setPos_pos, State.setDisk_pos, State.setPos_bufDisk, State.setDisk_bufDisk, hw]
    exact h.heads
  status := h.status
  completed := h.completed

theorem inv_format [DecidableEq B] {i j k : ℕ} (hp : s.pos p = .owns .format r [i, j, k])
    (hl : s.lock = some (.proc p)) :
    Inv (((s.setDisk (s.disk.format r i j k)).setBufDisk r.b true).setPos p
      (.owns .publish r [i, j, k])) pend done := by
  have hok := h.proc p
  rw [hp] at hok
  have hmem : i ∈ (s.pos p).idx := by simp [hp]
  have hw : (s.pos p).waits s.bufDisk = none := by
    rw [hp]
    rfl
  have hother : ∀ q ≠ p, ∀ b, s.holder b = some q → update s.bufDisk r.b true b = s.bufDisk b :=
    fun q hq b hb => update_of_ne (buf_ne hok.2.1 hb hq) _ _
  have hdisj : ∀ q ≠ p, ∀ x ∈ (s.pos q).idx, x ∉ [i, j, k] := by
    intro q hq x hx hm
    exact hq (h.held.disjoint q p x hx (by simpa [hp] using hm))
  have hidx : ∀ q, (update s.pos p (.owns .publish r [i, j, k]) q).idx = (s.pos q).idx :=
    pos_update Pos.idx (by rw [hp]; rfl)
  refine ⟨h.calm, ?_, ?_, h.avail.store num_dvd (h.pend_lt hmem hw) i, h.used, ?_, ?_, h.completed⟩
  · refine proc_update h.proc rfl ?_ fun q hq hq' => ?_
    · have hn := h.held.nodup p
      rw [hp] at hn
      refine ⟨iff_of_true hl (by simp), hok.2.1, rfl, fun _ => ?_, fun _ => ⟨?_, ?_⟩,
        fun hn => hn.elim⟩
      · exact Disk.format_formatted hn
      · exact update_self ..
      · simp [Disk.format]
    · refine hq'.frame Iff.rfl (fun b hb => ⟨hb, hother q hq b hb⟩) (fun r' hr => ?_)
        (fun hn => absurd hn (lock_other hl hq)) (fun i _ hi => hi)
      exact hr.congr (fun x hx => Disk.format_ops (hdisj q hq x hx))
        (fun x hx => Disk.format_desc (hdisj q hq x hx))
        fun x hx => congrArg Info.b (Disk.format_info (hdisj q hq x hx))
  · simp only [State.setPos_pos, State.setBufDisk_pos, State.setDisk_pos, hidx]
    exact h.held
  · have hwaits q : (update s.pos p (.owns .publish r [i, j, k]) q).waits
        (update s.bufDisk r.b true) = (s.pos q).waits s.bufDisk := by
      by_cases hq : q = p
      · rw [hq, update_self, hw]
        rfl
      · rw [update_of_ne hq]
        exact (h.proc q).waits_congr (hother q hq)
    simp only [State.setPos_pos, State.setBufDisk_pos, State.setDisk_pos, State.setPos_bufDisk,
      State.setBufDisk_bufDisk, State.setDisk_bufDisk, hwaits]
    exact h.heads
  · intro x hx
    have hne : x ≠ i := by
      rintro rfl
      exact h.not_mem hmem hw (mem_append_right _ hx)
    have hinfo : (s.disk.format r i j k).info x = s.disk.info x := by simp [Disk.format, hne]
    exact (congrArg Info.status hinfo).trans (h.status x hx)

theorem inv_publish (hp : s.pos p = .owns .publish r (i :: idx)) (hl : s.lock = some (.proc p)) :
    Inv { (s.setDisk (s.disk.setAvail s.disk.avail.advance)).setPos p
        (.owns .check r (i :: idx)) with
      completed := update s.completed i false } (pend ++ [i]) done := by
  have hok := h.proc p
  rw [hp] at hok
  obtain ⟨-, hh, h3, hf, hpub, -⟩ := hok
  obtain ⟨hb, hd⟩ := hpub rfl
  have hmem : i ∈ (s.pos p).idx := by simp [hp]
  have hw : (s.pos p).waits s.bufDisk = none := by
    rw [hp]
    rfl
  have hni := h.not_mem hmem hw
  have hidx : ∀ q, (update s.pos p (.owns .check r (i :: idx)) q).idx = (s.pos q).idx :=
    pos_update Pos.idx (by rw [hp]; rfl)
  refine ⟨h.calm, ?_, ?_, ?_, h.used, ?_, h.status, ?_⟩
  · refine proc_update h.proc rfl ?_ fun q hq hq' => ?_
    · exact ⟨iff_of_true hl (by simp), hh, h3,
        fun _ => (hf (by simp)).congr (fun _ _ => rfl) (fun _ _ => rfl) (fun _ _ => rfl),
        nofun, fun _ hbf => absurd (hb.symm.trans hbf) (by simp)⟩
    · refine hq'.frame Iff.rfl (fun b hb => ⟨hb, rfl⟩) (fun r hr => hr.congr (fun _ _ => rfl)
        (fun _ _ => rfl) fun _ _ => rfl) (fun hn => absurd hn (lock_other hl hq)) (fun x hx hc =>
    ?_)
      have hne : x ≠ i := by
        rintro rfl
        exact hq (h.held.disjoint q p x hx hmem)
      exact (update_of_ne hne ..).trans hc
  · simp only [State.setPos_pos, State.setDisk_pos, hidx]
    exact h.held
  · exact h.avail.advance num_dvd (h.pend_lt hmem hw) (Option.some.inj hd).symm
  · have hperm : (pend ++ [i] ++ s.work ++ done).Perm (i :: (pend ++ s.work ++ done)) := by simp
    refine Heads.perm ⟨nodup_cons.mpr ⟨hni, h.heads.nodup⟩, fun x => ?_⟩ hperm
    have hself : (Pos.owns .check r (i :: idx)).waits s.bufDisk = some i := if_pos hb
    rw [mem_cons, h.heads.mem_iff x]
    constructor
    · rintro (rfl | ⟨q, hq⟩)
      · exact ⟨p, by simpa using hself⟩
      have hqp : q ≠ p := by
        rintro rfl
        rw [hw] at hq
        cases hq
      exact ⟨q, by simpa [hqp] using hq⟩
    · rintro ⟨q, hq⟩
      obtain rfl | hqp := eq_or_ne q p
      · simp only [State.setPos_pos, update_self, State.setPos_bufDisk, State.setDisk_bufDisk,
          hself] at hq
        exact .inl (Option.some.inj hq).symm
      · exact .inr ⟨q, by simpa [hqp] using hq⟩
  · grind

theorem inv_done (hp : s.pos p = .owns .check r (i :: idx))
    (hl : s.lock = some (.proc p)) (hb : s.bufDisk r.b = false) :
    Inv (((s.setDisk ((s.disk.setInfo i { s.disk.info i with b := none }).released
      (i :: idx))).setPos p .idle).setLock none) pend done := by
  have hw : (s.pos p).waits s.bufDisk = none := by
    rw [hp]
    exact if_neg (by simp [hb])
  have hdisj : ∀ q ≠ p, ∀ x ∈ (s.pos q).idx, x ∉ i :: idx := by
    intro q hq x hx hm
    exact hq (h.held.disjoint q p x hx (by simpa [hp] using hm))
  refine ⟨h.calm, ?_, ?_, h.avail, h.used, ?_, fun x hx => ?_, h.completed⟩
  · refine proc_update h.proc rfl nofun fun q hq hq' => ?_
    refine hq'.frame (iff_of_false nofun (lock_other hl hq)) (fun b hb => ⟨hb, rfl⟩)
      (fun r' hr => ?_) (fun _ => rfl) (fun _ _ hi => hi)
    refine hr.congr (fun _ _ => rfl) (fun x hx => if_neg (hdisj q hq x hx)) fun x hx => ?_
    have hne : x ≠ i := fun he => hdisj q hq x hx (he ▸ (.head _))
    simp [hne]
  · refine h.held.give (p := p) (by simp) (fun q hq => by simp [hq]) fun x => ?_
    simp [hp, and_assoc]
  · have hwaits : ∀ q, (update s.pos p .idle q).waits s.bufDisk = (s.pos q).waits s.bufDisk :=
      pos_update (Pos.waits s.bufDisk) (by rw [hw]; rfl)
    simp only [State.setLock_pos, State.setPos_pos, State.setDisk_pos, State.setLock_bufDisk,
      State.setPos_bufDisk, State.setDisk_bufDisk, hwaits]
    exact h.heads
  · obtain rfl | hxi := eq_or_ne x i
    · simpa using h.status x hx
    · simpa [hxi] using h.status x hx

end Proc

theorem inv_clear [DecidableEq B] (h : Inv s pend (i :: done))
    {r : Req B} {l : List ℕ} (hp : s.pos p = .owns .sleep r (i :: l)) (hb : s.bufDisk r.b = true) :
    Inv ((s.setDisk (s.disk.setUsed s.disk.used.pop)).setBufDisk r.b false) pend done := by
  have hok := h.proc p
  rw [hp] at hok
  have hself : (s.pos p).waits s.bufDisk = some i := by
    rw [hp]
    exact if_pos hb
  have hother : ∀ q ≠ p, ∀ b, s.holder b = some q → update s.bufDisk r.b false b = s.bufDisk b :=
    fun q hq b hb => update_of_ne (buf_ne hok.2.1 hb hq) _ _
  refine ⟨h.calm, fun q => ?_, h.held, h.avail, h.used.pop num_lt, ?_,
    fun x hx => h.status x (.tail i hx),
    fun x hx => h.completed x (.tail i hx)⟩
  · obtain rfl | hq := eq_or_ne q p
    · obtain ⟨hlock, hh, h3, hf, hpub, -⟩ := hok
      rw [State.setBufDisk_pos, State.setDisk_pos, hp]
      refine ⟨hlock, hh, h3, fun hst => (hf hst).congr (fun _ _ => rfl) (fun _ _ => rfl)
        (fun _ _ => rfl), nofun, fun _ _ x hx => ?_⟩
      grind
    · exact (h.proc q).frame Iff.rfl (fun b hb => ⟨hb, hother q hq b hb⟩) (fun r hr => hr.congr
        (fun _ _ => rfl) (fun _ _ => rfl) fun _ _ => rfl) (fun _ => rfl) (fun _ _ hx => hx)
  · have hperm : (pend ++ s.work ++ i :: done).Perm (i :: (pend ++ s.work ++ done)) :=
      perm_middle
    have hn := nodup_cons.mp (hperm.nodup_iff.mp h.heads.nodup)
    refine ⟨hn.2, fun x => ?_⟩
    have hx := (hperm.mem_iff (a := x)).symm.trans (h.heads.mem_iff x)
    have hpw : (s.pos p).waits (update s.bufDisk r.b false) = none := by
      rw [hp]
      exact if_neg (by simp)
    constructor
    · intro hm
      obtain ⟨q, hq⟩ := hx.mp (.tail i hm)
      have hqp : q ≠ p := by grind
      exact ⟨q, ((h.proc q).waits_congr (hother q hqp)).trans hq⟩
    · rintro ⟨q, hq⟩
      have hqp : q ≠ p := by
        rintro rfl
        cases hpw.symm.trans hq
      have hq' := ((h.proc q).waits_congr (hother q hqp)).symm.trans hq
      refine mem_of_ne_of_mem ?_ (hx.mpr ⟨q, hq'⟩)
      rintro rfl
      exact hqp (h.held.disjoint q p x (Pos.mem_idx_of_waits hq') (Pos.mem_idx_of_waits hself))

theorem inv_consume (h : Inv s (i :: pend) done) :
    Inv { s.setDisk (s.disk.setAvail s.disk.avail.pop) with work := s.work ++ [i] } pend done := by
  refine ⟨h.calm, fun q => ?_, h.held, h.avail.pop num_lt, h.used, h.heads.perm ?_, h.status,
    h.completed⟩
  · exact (h.proc q).frame Iff.rfl (fun b hb => ⟨hb, rfl⟩) (fun r hr => hr.congr (fun _ _ => rfl)
      (fun _ _ => rfl) fun _ _ => rfl) (fun _ => rfl) (fun _ _ hx => hx)
  · grind

theorem inv_complete (h : Inv s pend done) (hi : i ∈ s.work) :
    Inv { s.setDisk ((s.disk.writeStatus i).setUsed (s.disk.used.push i)) with
      work := s.work.erase i
      completed := update s.completed i true } pend (done ++ [i]) := by
  have hm : i ∈ pend ++ s.work ++ done := by simp [hi]
  obtain ⟨p, st, r, l, hp, hst, hb, hf⟩ := h.waiting hm
  rw [Disk.writeStatus_formatted hf]
  have hlt : done.length < num := by
    have := h.length_le
    grind
  have hcomp x (hx : s.completed x = true) : update s.completed i true x = true := by
    by_cases hxi : x = i <;> simp [hxi, hx]
  have hinfo : ∀ x, (update s.disk.info i { s.disk.info i with status := 0 } x).b =
      (s.disk.info x).b := by
    intro x
    by_cases hxi : x = i <;> simp [hxi]
  refine ⟨h.calm, fun q => ?_, h.held, h.avail, h.used.push num_dvd hlt i, h.heads.perm ?_,
    fun x hx => ?_, fun x hx => ?_⟩
  · exact (h.proc q).frame Iff.rfl (fun b hb => ⟨hb, rfl⟩) (fun r hr => hr.congr (fun _ _ => rfl)
      (fun _ _ => rfl) fun x _ => hinfo x) (fun _ => rfl) (fun x _ hx => hcomp x hx)
  · grind
  · by_cases hxi : x = i
    · simp [hxi]
    · have hx' : x ∈ done := by simpa [hxi] using hx
      simpa [hxi] using h.status x hx'
  · grind

end Xv6.Virtio
