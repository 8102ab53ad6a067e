import Xv6.Itable.Counted

/-! The steps of the inode table, one constructor for each outcome, and how they keep its counts. -/
namespace Xv6.Itable
open Function Counting
attribute [local simp] Pc.uses
variable {P : Type} {c : Pc} {i : Fin ninode} {dev inum n : ℕ} {s : Table P} {p : P}

@[grind →] theorem uses_of_holds (h : c.holds = some i) : c.uses = some i := by
  cases c <;> simp_all [Pc.holds]

theorem find_eq_some (h : s.find dev inum = some i) :
    0 < (s.inode i).ref ∧ (s.inode i).dev = dev ∧ (s.inode i).inum = inum := by
  simpa using List.find?_some h

theorem find_eq_none (h : s.find dev inum = none) (i : Fin ninode)
    (hr : 0 < (s.inode i).ref) (hd : (s.inode i).dev = dev) : (s.inode i).inum ≠ inum := by
  intro hn
  have := List.find?_eq_none.mp h i (List.mem_finRange i)
  simp [hr, hd, hn] at this

theorem findEmpty_eq_some (h : s.findEmpty = some i) : (s.inode i).ref = 0 := by
  simpa using List.find?_some h

variable [DecidableEq P]

namespace Table

def addRef (s : Table P) (p : P) (i : Fin ninode) : Table P :=
  (s.setInode i ((s.inode i).setRef ((s.inode i).ref + 1))).setRefs p i (s.refs p i + 1)

def dropRef (s : Table P) (p : P) (i : Fin ninode) : Table P :=
  (s.setInode i ((s.inode i).setRef ((s.inode i).ref - 1))).setRefs p i (s.refs p i - 1)

def takeEmpty (s : Table P) (p : P) (i : Fin ninode) (dev inum : ℕ) : Table P :=
  (s.setInode i ((s.inode i).recycle dev inum)).setRefs p i (s.refs p i + 1)

def lockBy (s : Table P) (p : P) (i : Fin ninode) : Table P :=
  s.setInode i ((s.inode i).setLock (some p))

def truncate (s : Table P) (i : Fin ninode) : Table P :=
  (s.setInode i ((s.inode i).setDin (s.inode i).din.truncated)).writeBack i

omit [DecidableEq P] in
theorem truncate_eq (s : Table P) (i : Fin ninode) : s.truncate i =
    ((s.setInode i ((s.inode i).setDin (s.inode i).din.truncated)).setDisk (s.inode i).dev
      (s.inode i).inum (s.inode i).din.truncated).setChanged i false := by
  simp [truncate, writeBack, setInode, Inode.setDin]

def loaded (s : Table P) (i : Fin ninode) : Table P :=
  s.setInode i ((s.inode i).load (s.disk (s.inode i).dev (s.inode i).inum))

theorem setPc_self (h : s.pc p = c) : s.setPc p c = s := by
  unfold setPc
  rw [← h, update_eq_self]

end Table

inductive Step (n : ℕ) (s : Table P) : Action P → Table P → Prop where
  | getHit {p : P} {dev inum : ℕ} {i : Fin ninode} {a : Action P}
      (hp : s.pc p = .idle ∧ a = .iget p dev inum ∨ s.pc p = .get dev inum ∧ a = .step p)
      (hf : s.find dev inum = some i) : Step n s a ((s.addRef p i).setPc p .idle)
  | getNew {p : P} {dev inum : ℕ} {i : Fin ninode} {a : Action P}
      (hp : s.pc p = .idle ∧ a = .iget p dev inum ∨ s.pc p = .get dev inum ∧ a = .step p)
      (hf : s.find dev inum = none) (he : s.findEmpty = some i) :
      Step n s a ((s.takeEmpty p i dev inum).setPc p .idle)
  | panic {a : Action P} {t : Table P} {e : Panic} (ht : t.panic = some e)
      (hi : t.inode = s.inode) (hd : t.disk = s.disk) (hr : t.refs = s.refs)
      (hc : t.changed = s.changed) (hpc : t.pc = s.pc ∨ ∃ p, (s.pc p).uses = none ∧
        t.pc = update s.pc p .idle) : Step n s a t
  | idup {p : P} {i : Fin ninode} (hp : s.pc p = .idle) (hr : 0 < s.refs p i) :
      Step n s (.idup p i) (s.addRef p i)
  | give {p q : P} {i : Fin ninode} (hp : s.pc p = .idle) (hs : s.Spare p i) (hpq : p ≠ q) :
      Step n s (.give p q i) ((s.setRefs p i (s.refs p i - 1)).setRefs q i (s.refs q i + 1))
  | ilock {p : P} {i : Fin ninode} (hp : s.pc p = .idle) (hs : s.Spare p i) :
      Step n s (.ilock p i) (s.setPc p (.lock i))
  | modify {p : P} {i : Fin ninode} {d : Dinode} (hp : s.pc p = .idle)
      (hl : (s.inode i).lock = some p) (ht : d.type = (s.inode i).din.type) :
      Step n s (.modify p i d) ((s.setInode i ((s.inode i).setDin d)).setChanged i true)
  | iupdate {p : P} {i : Fin ninode} (hp : s.pc p = .idle) (hl : (s.inode i).lock = some p) :
      Step n s (.iupdate p i) (s.writeBack i)
  | itrunc {p : P} {i : Fin ninode} (hp : s.pc p = .idle) (hl : (s.inode i).lock = some p) :
      Step n s (.itrunc p i) (s.truncate i)
  | iunlock {p : P} {i : Fin ninode} (hp : s.pc p = .idle) (hl : (s.inode i).lock = some p)
      (hc : s.changed i = false) : Step n s (.iunlock p i) (s.setInode i ((s.inode i).setLock none))
  | iputFree {p : P} {i : Fin ninode} (hp : s.pc p = .idle) (hs : s.Spare p i)
      (hr : (s.inode i).ref = 1) (hv : (s.inode i).valid = true) (hn : (s.inode i).din.nlink = 0)
      (hl : (s.inode i).lock = none) : Step n s (.iput p i) ((s.lockBy p i).setPc p (.trunc i))
  | iputDrop {p : P} {i : Fin ninode} (hp : s.pc p = .idle) (hs : s.Spare p i) :
      Step n s (.iput p i) (s.dropRef p i)
  | ialloc {p : P} {dev : ℕ} {t : FileType} (hp : s.pc p = .idle) (ht : t ≠ .free) :
      Step n s (.ialloc p dev t) (s.setPc p (.scan dev t 1))
  | acquire {p : P} {i : Fin ninode} (hp : s.pc p = .lock i) (hl : (s.inode i).lock = none) :
      Step n s (.step p) ((s.lockBy p i).setPc p (.load i))
  | loadValid {p : P} {i : Fin ninode} (hp : s.pc p = .load i) (hv : (s.inode i).valid = true) :
      Step n s (.step p) (s.setPc p .idle)
  | load {p : P} {i : Fin ninode} {t : Table P} (hp : s.pc p = .load i)
      (hv : (s.inode i).valid = false) (ht : t = (s.loaded i).setPc p .idle ∨
        t = ((s.loaded i).setPc p .idle).fail .noType)
      (hty : t.panic = none → (s.disk (s.inode i).dev (s.inode i).inum).type ≠ .free) :
      Step n s (.step p) t
  | trunc {p : P} {i : Fin ninode} (hp : s.pc p = .trunc i) :
      Step n s (.step p) ((s.truncate i).setPc p (.untype i))
  | untype {p : P} {i : Fin ninode} (hp : s.pc p = .untype i) :
      Step n s (.step p)
        ((s.setInode i ((s.inode i).setDin ((s.inode i).din.setType .free))).setPc p (.free i))
  | free {p : P} {i : Fin ninode} (hp : s.pc p = .free i) :
      Step n s (.step p) ((s.writeBack i).setPc p (.clear i))
  | clear {p : P} {i : Fin ninode} (hp : s.pc p = .clear i) :
      Step n s (.step p) ((s.setInode i (s.inode i).clear).setPc p (.unlock i))
  | unlock {p : P} {i : Fin ninode} (hp : s.pc p = .unlock i) :
      Step n s (.step p) ((s.setInode i ((s.inode i).setLock none)).setPc p (.drop i))
  | drop {p : P} {i : Fin ninode} (hp : s.pc p = .drop i) :
      Step n s (.step p) ((s.dropRef p i).setPc p .idle)
  | take {p : P} {dev inum : ℕ} {t : FileType} (hp : s.pc p = .scan dev t inum)
      (hf : (s.disk dev inum).type = .free) :
      Step n s (.step p) ((s.setDisk dev inum (.fresh t)).setPc p (.get dev inum))
  | scan {p : P} {dev inum : ℕ} {t : FileType} {c : Pc} (hp : s.pc p = .scan dev t inum)
      (hc : c = .idle ∨ c = .scan dev t (inum + 1)) : Step n s (.step p) (s.setPc p c)

theorem step_of_iget {a : Action P}
    (hp : s.pc p = .idle ∧ a = .iget p dev inum ∨ s.pc p = .get dev inum ∧ a = .step p) :
    Step n s a ((s.iget p dev inum).setPc p .idle) := by
  unfold Table.iget
  split
  next i hf => exact .getHit hp hf
  next hf =>
    split
    next i he => exact .getNew hp hf he
    · refine .panic rfl rfl rfl rfl rfl (.inr ⟨p, ?_, rfl⟩)
      rcases hp with hp | hp <;> rw [hp.1] <;> rfl

theorem iget_setPc_idle (hp : s.pc p = .idle) (dev inum : ℕ) :
    (s.iget p dev inum).setPc p .idle = s.iget p dev inum := by
  apply Table.setPc_self
  unfold Table.iget
  split
  · exact hp
  · split
    · exact hp
    · exact hp

theorem step_of_stepOf {s' : Table P} (h : s.stepOf n p = some s') : Step n s (.step p) s' := by
  unfold Table.stepOf at h
  split at h
  · cases h
  next i hp =>
    obtain ⟨hl, h⟩ := Option.ite_none_right_eq_some.mp h
    cases h
    exact .acquire hp hl
  next i hp =>
    split at h
    next hv =>
      cases h
      exact .loadValid hp hv
    next hv =>
      dsimp only at h
      split at h
      · cases h
        exact .load hp (by simpa using hv) (.inr rfl) (fun hn => by cases hn)
      next ht =>
        cases h
        exact .load hp (by simpa using hv) (.inl rfl) fun _ => ht
  next i hp =>
    cases h
    exact .trunc hp
  next i hp =>
    cases h
    exact .untype hp
  next i hp =>
    cases h
    exact .free hp
  next i hp =>
    cases h
    exact .clear hp
  next i hp =>
    cases h
    exact .unlock hp
  next i hp =>
    cases h
    exact .drop hp
  next dev t inum hp =>
    split at h
    · split at h
      next hf =>
        cases h
        exact .take hp hf
      · cases h
        exact .scan hp (.inr rfl)
    · cases h
      exact .scan hp (.inl rfl)
  next dev inum hp =>
    cases h
    exact step_of_iget (.inr ⟨hp, rfl⟩)

theorem step_of_next {s' : Table P} {a : Action P} (h : s.next n a = some s') :
    s.panic = none ∧ Step n s a s' := by
  unfold Table.next at h
  split at h
  · cases h
  next hpanic =>
    refine ⟨by simpa using hpanic, ?_⟩
    cases a with
    | iget p dev inum =>
      obtain ⟨hp, h⟩ := Option.ite_none_right_eq_some.mp h
      cases h
      rw [← iget_setPc_idle hp]
      exact step_of_iget (.inl ⟨hp, rfl⟩)
    | idup p i =>
      obtain ⟨hp, h⟩ := Option.ite_none_right_eq_some.mp h
      cases h
      exact .idup hp.1 hp.2
    | give p q i =>
      obtain ⟨hp, h⟩ := Option.ite_none_right_eq_some.mp h
      cases h
      exact .give hp.1 hp.2.1 hp.2.2
    | ilock p i =>
      obtain ⟨hp, h⟩ := Option.ite_none_right_eq_some.mp h
      split at h
      · cases h
        exact .panic rfl rfl rfl rfl rfl (.inl rfl)
      · cases h
        exact .ilock hp.1 hp.2
    | modify p i d =>
      obtain ⟨hp, h⟩ := Option.ite_none_right_eq_some.mp h
      cases h
      exact .modify hp.1 hp.2.1 hp.2.2
    | iupdate p i =>
      obtain ⟨hp, h⟩ := Option.ite_none_right_eq_some.mp h
      cases h
      exact .iupdate hp.1 hp.2
    | itrunc p i =>
      obtain ⟨hp, h⟩ := Option.ite_none_right_eq_some.mp h
      cases h
      exact .itrunc hp.1 hp.2
    | iunlock p i =>
      obtain ⟨hp, h⟩ := Option.ite_none_right_eq_some.mp h
      split at h
      · cases h
        exact .panic rfl rfl rfl rfl rfl (.inl rfl)
      · cases h
        exact .iunlock hp.1 hp.2.1 hp.2.2
    | iput p i =>
      obtain ⟨hp, h⟩ := Option.ite_none_right_eq_some.mp h
      unfold Table.iput at h
      split at h
      next hc =>
        obtain ⟨hl, h⟩ := Option.ite_none_right_eq_some.mp h
        cases h
        exact .iputFree hp.1 hp.2 hc.1 hc.2.1 hc.2.2 hl
      · cases h
        exact .iputDrop hp.1 hp.2
    | ialloc p dev t =>
      obtain ⟨hp, h⟩ := Option.ite_none_right_eq_some.mp h
      cases h
      exact .ialloc hp.1 hp.2
    | step p => exact step_of_stepOf h

theorem eq_update_pc (h : s.pc p = c) : s.pc = update s.pc p c := by
  rw [← h, update_eq_self]

private theorem eq_update_refs (s : Table P) (p : P) (i : Fin ninode) :
    s.refs = update s.refs p (update (s.refs p) i (s.refs p i)) := by
  rw [update_eq_self, update_eq_self]

theorem refs_pos_of_spare (h : s.Spare p i) : 0 < s.refs p i := Nat.zero_lt_of_lt h

theorem refs_of_spare_of_lock (h : s.Spare p i)
    (hl : (s.inode i).lock = some p) : 1 < s.refs p i := by
  unfold Table.Spare at h
  rwa [if_pos hl] at h

namespace Counted
variable [Fintype P] {s' : Table P} {a : Action P}

omit [DecidableEq P] in
theorem of_pc (h : Counted s) (hi : s'.inode = s.inode) (hr : s'.refs = s.refs)
    (hpc : ∀ q, s'.pc q = s.pc q ∨ (s'.pc q).uses = none) : Counted s' where
  unique := by rw [hi]; exact h.unique
  refs := by rw [hi, hr]; exact h.refs
  holder := by rw [hi, hr]; exact h.holder
  holds q j hq := by grind
  uses q j hq := by grind
  dropped q j hq := by grind

theorem of_setPc (h : Counted s) (hi : s'.inode = s.inode) (hr : s'.refs = s.refs)
    (hpc : s'.pc = update s.pc p c) (hc : c.uses = none) : Counted s' := by
  apply h.of_pc hi hr
  intro q
  rw [hpc]
  grind

/-- Steps at the contents of an entry, by a process that may move on. -/
theorem of_contents (h : Counted s) {x : Inode P}
    (hinode : s'.inode = update s.inode i x) (hpc : s'.pc = update s.pc p c)
    (hrefs : s'.refs = s.refs) (hp : (s.inode i).lock = some p)
    (hx : x.dev = (s.inode i).dev ∧ x.inum = (s.inode i).inum ∧ x.ref = (s.inode i).ref ∧
      x.lock = (s.inode i).lock) (hc : ∀ j, c.uses = some j → j = i)
    (hd : c ≠ .drop i) : Counted s' := by
  have hpos := h.holder p i hp
  apply h.put hinode hpc (hrefs.trans (eq_update_refs s p i))
  · rw [hx.2.2.1]
  · intro j hj hd hn
    exact h.unique j i hj (h.ref_pos_of_lock hp) (hd.trans hx.1) (hn.trans hx.2.1)
  · exact fun _ => hpos
  · intro q _ hl
    rwa [hx.2.2.2] at hl
  · grind
  · grind
  · exact fun j hj => ⟨hc j hj, hpos⟩
  · exact fun h => absurd h hd

theorem addRef (h : Counted s) (p : P)
    (hr : 0 < (s.inode i).ref) : Counted ((s.addRef p i).setPc p .idle) := by
  apply h.put (x := (s.inode i).setRef ((s.inode i).ref + 1)) (c := .idle) (n := s.refs p i + 1)
    rfl rfl rfl
  · dsimp only [Inode.setRef]
    omega
  · exact fun j hj hd hn => h.unique j i hj hr hd hn
  · exact fun _ => Nat.succ_pos _
  · exact fun q _ hl => hl
  · exact fun q _ hq => h.holds q i hq
  · simp [Pc.holds]
  · simp
  · simp

theorem takeEmpty (h : Counted s) (hf : s.find dev inum = none) (he : (s.inode i).ref = 0) :
    Counted ((s.takeEmpty p i dev inum).setPc p .idle) := by
  have hle := h.refs_le p i
  have hfree : ∀ q, (s.inode i).lock ≠ some q := by
    intro q hq
    have := h.ref_pos_of_lock hq
    omega
  apply h.put (x := (s.inode i).recycle dev inum) (c := .idle) (n := s.refs p i + 1) rfl rfl rfl
  · dsimp only [Inode.recycle]
    omega
  · exact fun j hj hd hn => absurd hn (find_eq_none hf j hj hd)
  · exact fun _ => Nat.succ_pos _
  · exact fun q _ hl => hl
  · exact fun q _ hq => h.holds q i hq
  · simp [Pc.holds]
  · simp
  · simp

theorem dropRef (h : Counted s) (hr : 0 < s.refs p i)
    (hl : (s.inode i).lock = some p → 1 < s.refs p i) :
    Counted ((s.dropRef p i).setPc p .idle) := by
  have hle := h.refs_le p i
  apply h.put (x := (s.inode i).setRef ((s.inode i).ref - 1)) (c := .idle) (n := s.refs p i - 1)
    rfl rfl rfl
  · dsimp only [Inode.setRef]
    omega
  · exact fun j hj hd hn => h.unique j i hj (by omega) hd hn
  · intro hp
    have := hl hp
    omega
  · exact fun q _ hl => hl
  · exact fun q _ hq => h.holds q i hq
  · simp [Pc.holds]
  · simp
  · simp

theorem give (h : Counted s) {q : P} (hp : s.pc p = .idle) (hs : s.Spare p i) (hpq : p ≠ q) :
    Counted ((s.setRefs p i (s.refs p i - 1)).setRefs q i (s.refs q i + 1)) := by
  have hpos := refs_pos_of_spare hs
  have hrefs r j (hr : 0 < s.refs r j) (hone : r = p → j = i → 1 < s.refs r j) : 0 <
      ((s.setRefs p i (s.refs p i - 1)).setRefs q i (s.refs q i + 1)).refs r j := by
    simp only [Table.setRefs]
    grind
  refine ⟨h.unique, ?_, ?_, h.holds, ?_, h.dropped⟩
  · intro j
    have h1 := total_update (fun r => r j) s.refs p (update (s.refs p) i (s.refs p i - 1))
    have h2 := total_update (fun r => r j)
      (update s.refs p (update (s.refs p) i (s.refs p i - 1))) q
      (update (update s.refs p (update (s.refs p) i (s.refs p i - 1)) q) i (s.refs q i + 1))
    have hj := h.refs j
    simp only [Table.setRefs]
    grind
  · intro r j hl
    apply hrefs r j (h.holder r j hl)
    rintro rfl rfl
    exact refs_of_spare_of_lock hs hl
  · intro r j hr
    apply hrefs r j (h.uses r j hr)
    rintro rfl rfl
    have hr : (s.pc r).uses = some j := hr
    simp [hp] at hr

theorem lockBy (h : Counted s) (hr : 0 < s.refs p i)
    (hl : (s.inode i).lock = none) (hc : ∀ j, c.uses = some j → j = i) (hd : c ≠ .drop i) :
    Counted ((s.lockBy p i).setPc p c) := by
  refine h.put (x := (s.inode i).setLock (some p)) rfl rfl (eq_update_refs s p i) rfl
    ?_ ?_ ?_ ?_ ?_ ?_ ?_
  · exact fun j hj hd hn => h.unique j i hj (hr.trans_le (h.refs_le p i)) hd hn
  · exact fun _ => hr
  · intro q hq hl
    cases hl
    exact absurd rfl hq
  · grind
  · exact fun j hj => ⟨hc j (uses_of_holds hj), rfl⟩
  · exact fun j hj => ⟨hc j hj, hr⟩
  · exact fun h => absurd h hd

theorem unlock (h : Counted s)
    (hl : (s.inode i).lock = some p) (hh : c.holds = none) (hc : ∀ j, c.uses = some j → j = i) :
    Counted ((s.setInode i ((s.inode i).setLock none)).setPc p c) := by
  have hr := h.holder p i hl
  refine h.put (x := (s.inode i).setLock none) rfl rfl (eq_update_refs s p i) rfl
    ?_ ?_ ?_ ?_ ?_ ?_ ?_
  · exact fun j hj hd hn => h.unique j i hj (h.ref_pos_of_lock hl) hd hn
  · exact fun _ => hr
  · intro q _ hl
    cases hl
  · grind
  · simp [hh]
  · exact fun j hj => ⟨hc j hj, hr⟩
  · exact fun _ => by simp [Inode.setLock]

theorem step (h : Counted s) (hs : Step n s a s') : Counted s' := by
  cases hs with
  | getHit _ hf => exact h.addRef _ (find_eq_some hf).1
  | getNew _ hf he => exact h.takeEmpty hf (findEmpty_eq_some he)
  | panic _ hi _ hr _ hpc =>
    rcases hpc with hpc | ⟨p, _, hpc⟩
    · exact h.of_pc hi hr fun q => .inl (by rw [hpc])
    · exact h.of_setPc hi hr hpc rfl
  | @idup p i hp hr =>
    rw [← Table.setPc_self (s := s.addRef p i) hp]
    exact h.addRef p (hr.trans_le (h.refs_le p i))
  | give hp hs hpq => exact h.give hp hs hpq
  | @ilock p i hp hs =>
    have hr := refs_pos_of_spare hs
    refine h.put (x := s.inode i) (update_eq_self ..).symm rfl (eq_update_refs s p i) rfl
      ?_ ?_ ?_ ?_ ?_ ?_ ?_
    · exact fun j hj hd hn => h.unique j i hj (hr.trans_le (h.refs_le p i)) hd hn
    · exact fun _ => hr
    · exact fun q _ hl => hl
    · exact fun q _ hq => h.holds q i hq
    · simp [Pc.holds]
    · grind
    · simp
  | modify hp hl | itrunc hp hl =>
    exact h.of_contents rfl (eq_update_pc hp) rfl hl ⟨rfl, rfl, rfl, rfl⟩ (by simp) (by simp)
  | iupdate => exact ⟨h.unique, h.refs, h.holder, h.holds, h.uses, h.dropped⟩
  | @iunlock p i hp hl hc =>
    rw [← Table.setPc_self (s := s.setInode i _) hp]
    exact h.unlock hl rfl (by simp)
  | iputFree hp hs _ _ _ hl =>
    exact h.lockBy (refs_pos_of_spare hs) hl (by simp [eq_comm]) (by simp)
  | @iputDrop p i hp hs =>
    rw [← Table.setPc_self (s := s.dropRef p i) hp]
    exact h.dropRef (refs_pos_of_spare hs) (refs_of_spare_of_lock hs)
  | ialloc | loadValid | take => exact h.of_setPc rfl rfl rfl rfl
  | @acquire p i hp hl =>
    exact h.lockBy (h.uses p i (by rw [hp]; rfl)) hl (by simp [eq_comm]) (by simp)
  | @load p i t hp hv ht =>
    have hl := h.holds p i (by rw [hp]; rfl)
    rcases ht with rfl | rfl
    · exact h.of_contents rfl rfl rfl hl ⟨rfl, rfl, rfl, rfl⟩ (by simp) (by simp)
    · exact h.of_contents rfl rfl rfl hl ⟨rfl, rfl, rfl, rfl⟩ (by simp) (by simp)
  | @trunc p i hp | @untype p i hp | @clear p i hp =>
    have hl := h.holds p i (by rw [hp]; rfl)
    exact h.of_contents rfl rfl rfl hl ⟨rfl, rfl, rfl, rfl⟩ (by simp [eq_comm]) (by simp)
  | @free p i hp =>
    have hl := h.holds p i (by rw [hp]; rfl)
    exact h.of_contents (update_eq_self i s.inode).symm rfl rfl hl ⟨rfl, rfl, rfl, rfl⟩
      (by simp [eq_comm]) (by simp)
  | @unlock p i hp =>
    exact h.unlock (h.holds p i (by rw [hp]; rfl)) rfl (by simp [eq_comm])
  | @drop p i hp =>
    exact h.dropRef (h.uses p i (by rw [hp]; rfl)) fun hl => absurd hl (h.dropped p i hp)
  | @scan p dev inum t c hp hc =>
    have hu : c.uses = none := by rcases hc with rfl | rfl <;> rfl
    exact h.of_setPc (p := p) (c := c) rfl rfl rfl hu

end Counted
end Xv6.Itable
