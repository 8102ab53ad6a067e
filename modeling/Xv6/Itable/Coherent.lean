import Xv6.Itable.Steps

/-! The contents of the inode table. A valid entry that nobody modifies equals the inode on disk and
is allocated there, up to the point where `iput` frees it. -/
namespace Xv6.Itable
open Function
variable {P : Type} {c : Pc} {i : Fin ninode}

namespace Pc

/-- `iput` has set `ip->type` to zero and not yet cleared `ip->valid`. -/
@[grind] def leaving : Pc → Option (Fin ninode)
  | .free i | .clear i => some i
  | _ => none

/-- `iput` has decided to free the inode and not yet done so on disk. -/
@[grind] def ending : Pc → Option (Fin ninode)
  | .trunc i | .untype i | .free i => some i
  | _ => none

@[grind →] theorem holds_of_leaving (h : c.leaving = some i) : c.holds = some i := by
  cases c <;> simp_all [leaving, holds]

@[grind →] theorem holds_of_ending (h : c.ending = some i) : c.holds = some i := by
  cases c <;> simp_all [ending, holds]

end Pc

attribute [local simp] Pc.leaving

/-- The inode on disk that entry `x` stands for. -/
@[grind] def Table.onDisk (s : Table P) (x : Inode P) : Dinode := s.disk x.dev x.inum

/-- What holds of entry `x` once `iput` has decided to free it. -/
@[grind] def Doomed (s : Table P) (x : Inode P) : Prop :=
  x.valid = true ∧ x.din.nlink = 0 ∧ (s.onDisk x).nlink = 0 ∧ (s.onDisk x).type ≠ .free

@[grind cases] structure Coherent (s : Table P) : Prop where
  changed : ∀ i, s.changed i = true → ∃ p, (s.inode i).lock = some p ∧ (s.pc p).holds ≠ some i
  agree : ∀ i, 0 < (s.inode i).ref → (s.inode i).valid = true → s.changed i = false →
    (∀ p, (s.pc p).leaving ≠ some i) → (s.inode i).din = s.onDisk (s.inode i)
  typed : s.panic = none → ∀ i, 0 < (s.inode i).ref → (s.inode i).valid = true →
    (∀ p, (s.pc p).leaving ≠ some i) →
    (s.inode i).din.type ≠ .free ∧ (s.onDisk (s.inode i)).type = (s.inode i).din.type
  ending : ∀ p i, (s.pc p).ending = some i → Doomed s (s.inode i)
  cleared : ∀ p i, s.pc p = .unlock i → (s.inode i).valid = false
  loaded : ∀ p i, (s.inode i).lock = some p → (s.pc p).holds ≠ some i → (s.inode i).valid = true
  scanning : ∀ p dev t k, s.pc p = .scan dev t k → t ≠ .free

namespace Coherent
variable {s s' : Table P}

theorem init (disk : ℕ → ℕ → Dinode) : Coherent (Table.init disk : Table P) where
  changed i hc := by simp [Table.init] at hc
  agree i hr := by simp [Table.init] at hr
  typed _ i hr := by simp [Table.init] at hr
  ending p i hp := by simp [Table.init, Pc.ending] at hp
  cleared p i hp := by simp [Table.init] at hp
  loaded p i hl := by simp [Table.init] at hl
  scanning p dev t k hp := by simp [Table.init] at hp

variable {p : P} {x : Inode P}

theorem not_changed_of_holds [Fintype P] (h : Coherent s) (hc : Counted s)
    (hp : (s.pc p).holds = some i) : s.changed i = false := by grind

theorem not_changed_of_unlocked (h : Coherent s)
    (hl : (s.inode i).lock = none) : s.changed i = false := by grind

theorem of_pc (h : Coherent s) (hi : s'.inode = s.inode) (hd : s'.disk = s.disk)
    (hch : s'.changed = s.changed) (hpanic : s'.panic = none → s.panic = none)
    (hpc : ∀ q, s'.pc q = s.pc q ∨ ((s.pc q).leaving = none ∧ (s'.pc q).holds = none ∧
      (∀ i, (s.pc q).holds = some i → (s.inode i).valid = true) ∧
      ∀ dev t k, s'.pc q = .scan dev t k → t ≠ .free)) : Coherent s' where
  changed i hc := by
    rw [hch] at hc
    grind
  agree i hr hv hc hl := by
    rw [hi] at hr hv ⊢
    grind
  typed hp i hr hv hl := by
    rw [hi] at hr hv ⊢
    grind
  ending q i hq := by grind
  cleared q i hq := by grind
  loaded q i hl hq := by
    rw [hi] at hl ⊢
    grind
  scanning q dev t k hq := by grind

variable [Fintype P] [DecidableEq P]

section
variable (h : Coherent s) (hcount : Counted s)
include h hcount

/-- A step of `p` at entry `i`: the entry becomes `x`, the process moves to `c`. -/
theorem put {b : Bool} (hinode : s'.inode = update s.inode i x)
    (hpc : s'.pc = update s.pc p c) (hch : s'.changed = update s.changed i b)
    (hpanic : s'.panic = none → s.panic = none)
    (hdisk : ∀ j ≠ i, 0 < (s.inode j).ref → s'.onDisk (s.inode j) = s.onDisk (s.inode j))
    (hold : ∀ j, (s.pc p).uses = some j → j = i) (hnew : ∀ j, c.uses = some j → j = i)
    (hchg : b = true → ∃ q, x.lock = some q ∧ (update s.pc p c q).holds ≠ some i)
    (hagree : 0 < x.ref → x.valid = true → b = false →
      (∀ q, (update s.pc p c q).leaving ≠ some i) → x.din = s'.onDisk x)
    (htyped : s'.panic = none → 0 < x.ref → x.valid = true →
      (∀ q, (update s.pc p c q).leaving ≠ some i) →
      x.din.type ≠ .free ∧ (s'.onDisk x).type = x.din.type)
    (hend : c.ending = some i → Doomed s' x)
    (hothers : ∀ q ≠ p, (s.pc q).holds = some i → x.valid = (s.inode i).valid ∧
      (Doomed s (s.inode i) → Doomed s' x))
    (hclear : c = .unlock i → x.valid = false)
    (hload : ∀ q, x.lock = some q → (update s.pc p c q).holds ≠ some i → x.valid = true)
    (hscan : ∀ dev t k, c = .scan dev t k → t ≠ .free) : Coherent s' where
  changed j hj := by
    rw [hch] at hj
    rw [hinode, hpc]
    obtain rfl | hji := eq_or_ne j i
    · grind
    rw [update_of_ne hji] at hj ⊢
    obtain ⟨q, hl, hq⟩ := h.changed j hj
    refine ⟨q, hl, ?_⟩
    obtain rfl | hqp := eq_or_ne q p
    · grind
    · rwa [update_of_ne hqp]
  agree j hr hv hc hl := by
    rw [hinode] at hr hv ⊢
    rw [hch] at hc
    rw [hpc] at hl
    obtain rfl | hji := eq_or_ne j i
    · grind
    rw [update_of_ne hji] at hr hv hc ⊢
    rw [hdisk j hji hr]
    apply h.agree j hr hv hc
    intro q hq
    obtain rfl | hqp := eq_or_ne q p
    all_goals grind
  typed hp j hr hv hl := by
    rw [hinode] at hr hv ⊢
    rw [hpc] at hl
    obtain rfl | hji := eq_or_ne j i
    · grind
    rw [update_of_ne hji] at hr hv ⊢
    rw [hdisk j hji hr]
    apply h.typed (hpanic hp) j hr hv
    intro q hq
    obtain rfl | hqp := eq_or_ne q p
    all_goals grind
  ending q j hq := by
    rw [hpc] at hq
    rw [hinode]
    obtain rfl | hqp := eq_or_ne q p
    · grind
    · rw [update_of_ne hqp] at hq
      obtain rfl | hji := eq_or_ne j i
      · grind
      rw [update_of_ne hji]
      have hr : 0 < (s.inode j).ref :=
        (hcount.uses q j (uses_of_holds (Pc.holds_of_ending hq))).trans_le (hcount.refs_le q j)
      have he := h.ending q j hq
      unfold Doomed at he ⊢
      rwa [hdisk j hji hr]
  cleared q j hq := by
    rw [hpc] at hq
    rw [hinode]
    grind
  loaded q j hl hq := by
    rw [hinode] at hl ⊢
    rw [hpc] at hq
    grind
  scanning q dev t k hq := by
    rw [hpc] at hq
    grind

/-- Steps that change the count or the lock of entry `i` and not its contents. -/
theorem keep (hinode : s'.inode = update s.inode i x) (hpc : s'.pc = update s.pc p c)
    (hch : s'.changed = s.changed) (hdisk : s'.disk = s.disk) (hpanic : s'.panic = s.panic)
    (hx : x.dev = (s.inode i).dev ∧ x.inum = (s.inode i).inum ∧ x.valid = (s.inode i).valid ∧
      x.din = (s.inode i).din) (href : 0 < x.ref → 0 < (s.inode i).ref)
    (hleave : (s.pc p).leaving = none) (hold : ∀ j, (s.pc p).uses = some j → j = i)
    (hnew : ∀ j, c.uses = some j → j = i)
    (hchg : s.changed i = true → ∃ q, x.lock = some q ∧ (update s.pc p c q).holds ≠ some i)
    (hend : c.ending = some i → Doomed s (s.inode i))
    (hclear : c = .unlock i → (s.inode i).valid = false)
    (hload : ∀ q, x.lock = some q → (update s.pc p c q).holds ≠ some i → (s.inode i).valid = true)
    (hscan : ∀ dev t k, c ≠ .scan dev t k) : Coherent s' := by
  have hon : s'.onDisk x = s.onDisk (s.inode i) := by grind
  have hback : (∀ q, (update s.pc p c q).leaving ≠ some i) →
      ∀ q, (s.pc q).leaving ≠ some i := by
    intro hl q hq
    obtain rfl | hqp := eq_or_ne q p
    · rw [hq] at hleave
      cases hleave
    · grind
  have hdoom (hd : Doomed s (s.inode i)) : Doomed s' x := by grind
  apply h.put hcount hinode hpc (b := s.changed i)
  · rw [hch, update_eq_self]
  · intro hp
    rwa [hpanic] at hp
  · grind
  · exact hold
  · exact hnew
  · exact hchg
  · grind
  · grind
  · exact fun hc => hdoom (hend hc)
  all_goals grind

/-- Steps of the holder of the lock that change the entry or its inode on disk. -/
theorem edit {b : Bool} (hl : (s.inode i).lock = some p) (hinode : s'.inode = update s.inode i x)
    (hpc : s'.pc = update s.pc p c) (hch : s'.changed = update s.changed i b)
    (hpanic : s'.panic = none → s.panic = none)
    (hdisk : s'.disk = s.disk ∨ ∃ d, s'.disk = (s.setDisk (s.inode i).dev (s.inode i).inum d).disk)
    (hold : ∀ j, (s.pc p).uses = some j → j = i) (hnew : ∀ j, c.uses = some j → j = i)
    (hchg : b = true → x.lock = some p ∧ c.holds ≠ some i)
    (hagree : x.valid = true → b = false → c.leaving ≠ some i → x.din = s'.onDisk x)
    (htyped : s'.panic = none → x.valid = true → c.leaving ≠ some i →
      x.din.type ≠ .free ∧ (s'.onDisk x).type = x.din.type)
    (hend : c.ending = some i → Doomed s' x) (hclear : c = .unlock i → x.valid = false)
    (hload : c.holds ≠ some i → x.valid = true) (hlock : x.lock = (s.inode i).lock)
    (hscan : ∀ dev t k, c ≠ .scan dev t k) : Coherent s' := by
  have hself (c' : Pc) : update s.pc p c' p = c' := update_self ..
  apply h.put hcount hinode hpc hch hpanic
  · intro j hji hr
    unfold Table.onDisk
    rcases hdisk with hd | ⟨d, hd⟩
    · rw [hd]
    rw [hd]
    simp only [Table.setDisk]
    by_cases hdev : (s.inode j).dev = (s.inode i).dev
    · rw [hdev, update_self, update_of_ne]
      exact fun hn => hji (hcount.unique j i hr (hcount.ref_pos_of_lock hl) hdev hn)
    · rw [update_of_ne hdev]
  · exact hold
  · exact hnew
  · grind
  · intro _ hv hb hn
    exact hagree hv hb (hself c ▸ hn p)
  · intro hp _ hv hn
    exact htyped hp hv (hself c ▸ hn p)
  · exact hend
  · grind
  · exact hclear
  all_goals grind

end

omit [DecidableEq P] in
/-- Where only the holder of the lock can be leaving, `typed` needs no look at the others. -/
theorem typed_of_lock (h : Coherent s) (hcount : Counted s)
    (hpanic : s.panic = none) (hl : (s.inode i).lock = some p) (hv : (s.inode i).valid = true)
    (hp : (s.pc p).leaving ≠ some i) : (s.inode i).din.type ≠ .free ∧
      (s.onDisk (s.inode i)).type = (s.inode i).din.type := by
  apply h.typed hpanic i (hcount.ref_pos_of_lock hl) hv
  grind

omit [Fintype P] [DecidableEq P] in
theorem onDisk_setDisk {y : Inode P} {d : Dinode} (hd : y.dev = x.dev) (hn : y.inum = x.inum) :
    (s.setDisk x.dev x.inum d).onDisk y = d := by
  unfold Table.onDisk
  rw [hd, hn]
  simp [Table.setDisk]

section
variable (h : Coherent s) (hcount : Counted s)
include h hcount

theorem addRef (hp : (s.pc p).uses = none) (hr : 0 < (s.inode i).ref) :
    Coherent ((s.addRef p i).setPc p .idle) := by
  have hleave : (s.pc p).leaving = none := by
    cases hc : s.pc p <;> simp_all [Pc.uses]
  refine h.keep hcount (x := (s.inode i).setRef ((s.inode i).ref + 1)) (c := .idle) rfl rfl rfl rfl
    rfl ⟨rfl, rfl, rfl, rfl⟩ (fun _ => hr) hleave (by simp [hp]) (by simp [Pc.uses]) ?_ ?_ ?_ ?_ ?_
  · intro hc
    obtain ⟨q, hl, hq⟩ := h.changed i hc
    refine ⟨q, hl, ?_⟩
    obtain rfl | hqp := eq_or_ne q p
    · simp [Pc.holds]
    · rwa [update_of_ne hqp]
  · simp [Pc.ending]
  · simp
  · grind [Inode.setRef]
  · simp

theorem dropRef (hp : s.pc p = .idle ∨ s.pc p = .drop i) :
    Coherent ((s.dropRef p i).setPc p .idle) := by
  refine h.keep hcount (x := (s.inode i).setRef ((s.inode i).ref - 1)) (c := .idle) rfl rfl rfl rfl
    rfl ⟨rfl, rfl, rfl, rfl⟩ ?_ ?_ ?_ ?_ ?_ ?_ ?_ ?_ ?_
  · intro hr
    dsimp only [Inode.setRef] at hr
    omega
  · grind
  · grind
  · simp [Pc.uses]
  · intro hc
    obtain ⟨q, hl, hq⟩ := h.changed i hc
    refine ⟨q, hl, ?_⟩
    obtain rfl | hqp := eq_or_ne q p
    · simp [Pc.holds]
    · rwa [update_of_ne hqp]
  · simp [Pc.ending]
  · simp
  · intro q hl hq
    apply h.loaded q i hl
    obtain rfl | hqp := eq_or_ne q p
    · rcases hp with hp | hp <;> simp [hp, Pc.holds]
    · rwa [update_of_ne hqp] at hq
  · simp

theorem takeEmpty {dev inum : ℕ} (hp : (s.pc p).uses = none) (he : (s.inode i).ref = 0) :
    Coherent ((s.takeEmpty p i dev inum).setPc p .idle) := by
  have hfree : ∀ q, (s.inode i).lock ≠ some q := by
    intro q hq
    have := hcount.ref_pos_of_lock hq
    omega
  have hch : s.changed i = false := by grind
  apply h.put hcount (x := (s.inode i).recycle dev inum) (c := .idle) (b := false) rfl rfl
  · rw [← hch, update_eq_self]
    rfl
  · exact id
  · exact fun _ _ _ => rfl
  · simp [hp]
  · simp [Pc.uses]
  · simp
  · simp [Inode.recycle]
  · simp [Inode.recycle]
  · simp [Pc.ending]
  · grind
  · simp
  · exact fun q hl => absurd hl (hfree q)
  · simp

end

omit [Fintype P] in
/-- `ialloc` takes a free inode, which no valid entry stands for. -/
theorem take (h : Coherent s) (hpanic : s.panic = none) {dev inum : ℕ} {t : FileType}
    (hp : s.pc p = .scan dev t inum) (hf : (s.disk dev inum).type = .free) :
    Coherent ((s.setDisk dev inum (.fresh t)).setPc p (.get dev inum)) := by
  have hsame (x : Inode P) (hx : (s.onDisk x).type ≠ .free) :
      (s.setDisk dev inum (.fresh t)).onDisk x = s.onDisk x := by
    unfold Table.onDisk at hx ⊢
    simp only [Table.setDisk]
    grind
  have hmoved : Coherent (s.setPc p (.get dev inum)) := by
    refine h.of_pc rfl rfl rfl id fun q => ?_
    obtain rfl | hqp := eq_or_ne q p
    · simp [Table.setPc, hp, Pc.holds]
    · left
      simp only [Table.setPc, update_of_ne hqp]
  refine ⟨hmoved.changed, ?_, ?_, ?_, hmoved.cleared, hmoved.loaded, hmoved.scanning⟩
  · intro i hr hv hc hl
    obtain ⟨ht, hd⟩ : (s.inode i).din.type ≠ .free ∧
      (s.onDisk (s.inode i)).type = (s.inode i).din.type := hmoved.typed hpanic i hr hv hl
    have ha : (s.inode i).din = s.onDisk (s.inode i) := hmoved.agree i hr hv hc hl
    exact ha.trans (hsame (s.inode i) (by rwa [hd])).symm
  · intro _ i hr hv hl
    obtain ⟨ht, hd⟩ : (s.inode i).din.type ≠ .free ∧
      (s.onDisk (s.inode i)).type = (s.inode i).din.type := hmoved.typed hpanic i hr hv hl
    exact ⟨ht, (congrArg Dinode.type (hsame (s.inode i) (by rwa [hd]))).trans hd⟩
  · intro q i hq
    obtain ⟨h1, h2, h3, h4⟩ : Doomed s (s.inode i) := hmoved.ending q i hq
    have hon := hsame _ h4
    exact ⟨h1, h2, (congrArg Dinode.nlink hon).trans h3,
      fun hn => h4 ((congrArg Dinode.type hon).symm.trans hn)⟩

omit [Fintype P] in
theorem moved (h : Coherent s) (hi : s'.inode = s.inode) (hd : s'.disk = s.disk)
    (hch : s'.changed = s.changed) (hpanic : s'.panic = none → s.panic = none)
    (hpc : s'.pc = update s.pc p c) (hleave : (s.pc p).leaving = none)
    (hc : c.holds = none) (hv : ∀ i, (s.pc p).holds = some i → (s.inode i).valid = true)
    (hscan : ∀ dev t k, c = .scan dev t k → t ≠ .free) : Coherent s' := by
  apply h.of_pc hi hd hch hpanic
  intro q
  rw [hpc]
  grind

theorem lockBy (h : Coherent s) (hcount : Counted s) (hp : s.pc p = .idle ∨ s.pc p = .lock i)
    (hl : (s.inode i).lock = none) (hr : 0 < (s.inode i).ref) (hnew : ∀ j, c.uses = some j → j = i)
    (hend : c.ending = some i → Doomed s (s.inode i)) (hc : c ≠ .unlock i)
    (hholds : c.holds = some i) (hscan : ∀ dev t k, c ≠ .scan dev t k) :
    Coherent ((s.lockBy p i).setPc p c) := by
  refine h.keep hcount (x := (s.inode i).setLock (some p)) rfl rfl rfl rfl rfl
    ⟨rfl, rfl, rfl, rfl⟩ (fun _ => hr) ?_ ?_ hnew ?_ hend (fun h => absurd h hc) ?_ hscan
  · grind
  · grind
  · simp [h.not_changed_of_unlocked hl]
  · intro q hq hh
    cases hq
    rw [update_self] at hh
    exact absurd hholds hh

theorem unlocked (h : Coherent s) (hcount : Counted s)
    (hp : s.pc p = .idle ∨ s.pc p = .unlock i) (hl : (s.inode i).lock = some p)
    (hch : s.changed i = false) (hnew : ∀ j, c.uses = some j → j = i) (hend : c.ending = none)
    (hc : c ≠ .unlock i) (hscan : ∀ dev t k, c ≠ .scan dev t k) :
    Coherent ((s.setInode i ((s.inode i).setLock none)).setPc p c) := by
  refine h.keep hcount (x := (s.inode i).setLock none) rfl rfl rfl rfl rfl
    ⟨rfl, rfl, rfl, rfl⟩ (fun _ => hcount.ref_pos_of_lock hl) ?_ ?_ hnew ?_ ?_
    (fun h => absurd h hc) (by simp [Inode.setLock]) hscan
  · grind
  · grind
  · simp [hch]
  · simp [hend]

omit [DecidableEq P] in
/-- `iput` decides to free an inode: nobody has it locked, so the entry agrees with the disk. -/
theorem doomed_of_iput (h : Coherent s) (hcount : Counted s) (hpanic : s.panic = none)
    (hr : 0 < (s.inode i).ref) (hv : (s.inode i).valid = true)
    (hn : (s.inode i).din.nlink = 0) (hl : (s.inode i).lock = none) : Doomed s (s.inode i) := by
  have hleave : ∀ q, (s.pc q).leaving ≠ some i := by grind
  have hd := h.agree i hr hv (h.not_changed_of_unlocked hl) hleave
  grind

theorem step (h : Coherent s) (hcount : Counted s) (hpanic : s.panic = none) {n : ℕ} {a : Action P}
    (hs : Step n s a s') : Coherent s' := by
  cases hs with
  | getHit hp hf =>
    apply h.addRef hcount ?_ (find_eq_some hf).1
    grind
  | getNew hp hf he =>
    apply h.takeEmpty hcount ?_ (findEmpty_eq_some he)
    grind
  | panic ht hi hd hr hc hpc =>
    have hnone (hn : s'.panic = none) : s.panic = none := absurd (ht.symm.trans hn) (by simp)
    rcases hpc with hpc | ⟨p, hu, hpc⟩
    · exact h.of_pc hi hd hc hnone fun q => .inl (by rw [hpc])
    apply h.moved hi hd hc hnone hpc ?_ rfl ?_ (by simp)
    · cases hc : s.pc p <;> simp_all [Pc.uses]
    · grind
  | @idup p i hp hr =>
    rw [← Table.setPc_self (s := s.addRef p i) hp]
    exact h.addRef hcount (by rw [hp]; rfl) (hr.trans_le (hcount.refs_le p i))
  | give => exact ⟨h.changed, h.agree, h.typed, h.ending, h.cleared, h.loaded, h.scanning⟩
  | ilock hp =>
    exact h.moved rfl rfl rfl id rfl (by rw [hp]; rfl) rfl (by simp [hp, Pc.holds]) (by simp)
  | @modify p i d hp hl ht =>
    refine h.edit hcount hl (x := (s.inode i).setDin d) (b := true) rfl (eq_update_pc hp) rfl id
      (.inl rfl) (by simp [hp, Pc.uses]) (by simp [Pc.uses]) (fun _ => ⟨hl, by simp [Pc.holds]⟩)
      (by simp) ?_ (by simp [Pc.ending]) (by simp)
      (fun _ => h.loaded p i hl (by simp [hp, Pc.holds])) rfl (by simp)
    intro _ hv _
    have htyped := h.typed_of_lock hcount hpanic hl hv (by simp [hp])
    dsimp only [Inode.setDin]
    rw [ht]
    exact htyped
  | @iupdate p i hp hl =>
    have hon := onDisk_setDisk (s := s) (x := s.inode i) (y := s.inode i)
      (d := (s.inode i).din) rfl rfl
    refine h.edit hcount hl (x := s.inode i) (b := false) (update_eq_self ..).symm
      (eq_update_pc hp) rfl id (.inr ⟨_, rfl⟩) (by simp [hp, Pc.uses]) (by simp [Pc.uses])
      (by simp) (fun _ _ _ => hon.symm) ?_ (by simp [Pc.ending]) (by simp)
      (fun _ => h.loaded p i hl (by simp [hp, Pc.holds])) rfl (by simp)
    intro _ hv _
    exact ⟨(h.typed_of_lock hcount hpanic hl hv (by simp [hp])).1, congrArg Dinode.type hon⟩
  | @itrunc p i hp hl =>
    have hon := onDisk_setDisk (s := s) (x := s.inode i)
      (y := (s.inode i).setDin (s.inode i).din.truncated) (d := (s.inode i).din.truncated) rfl rfl
    rw [Table.truncate_eq]
    refine h.edit hcount hl (x := (s.inode i).setDin (s.inode i).din.truncated) (b := false) rfl
      (eq_update_pc hp) rfl id (.inr ⟨_, rfl⟩) (by simp [hp, Pc.uses])
      (by simp [Pc.uses]) (by simp) (fun _ _ _ => hon.symm) ?_ (by simp [Pc.ending]) (by simp)
      (fun _ => h.loaded p i hl (by simp [hp, Pc.holds])) rfl (by simp)
    intro _ hv _
    exact ⟨(h.typed_of_lock hcount hpanic hl hv (by simp [hp])).1, congrArg Dinode.type hon⟩
  | @iunlock p i hp hl hc =>
    rw [← Table.setPc_self (s := s.setInode i _) hp]
    exact h.unlocked hcount (.inl hp) hl hc (by simp [Pc.uses]) rfl (by simp) (by simp)
  | @iputFree p i hp hs hr hv hn hl =>
    have hpos : 0 < (s.inode i).ref := by omega
    exact h.lockBy hcount (.inl hp) hl hpos (by simp [Pc.uses, eq_comm])
      (fun _ => h.doomed_of_iput hcount hpanic hpos hv hn hl) (by simp) rfl (by simp)
  | @iputDrop p i hp hs =>
    rw [← Table.setPc_self (s := s.dropRef p i) hp]
    exact h.dropRef hcount (.inl hp)
  | ialloc hp ht =>
    refine h.moved rfl rfl rfl id rfl (by rw [hp]; rfl) rfl (by simp [hp, Pc.holds]) ?_
    grind
  | @acquire p i hp hl =>
    have hr := (hcount.uses p i (by rw [hp]; rfl)).trans_le (hcount.refs_le p i)
    exact h.lockBy hcount (.inr hp) hl hr (by simp [Pc.uses, eq_comm]) (by simp [Pc.ending])
      (by simp) rfl (by simp)
  | loadValid hp hv =>
    refine h.moved rfl rfl rfl id rfl (by rw [hp]; rfl) rfl ?_ (by simp)
    grind
  | @load p i t hp hv ht hty =>
    have hl := hcount.holds p i (by rw [hp]; rfl)
    have hch := h.not_changed_of_holds hcount (p := p) (i := i) (by rw [hp]; rfl)
    have hfields : s'.inode = (s.loaded i).inode ∧ s'.pc = update s.pc p .idle ∧
        s'.changed = s.changed ∧ s'.disk = s.disk := by
      rcases ht with rfl | rfl <;> exact ⟨rfl, rfl, rfl, rfl⟩
    obtain ⟨hi, hpc, hc, hd⟩ := hfields
    refine h.edit hcount hl (b := false) hi hpc ?_ (fun _ => hpanic) (.inl hd)
      (by simp [hp, Pc.uses]) (by simp [Pc.uses]) (by simp) ?_ ?_ (by simp [Pc.ending]) (by simp)
      (fun _ => rfl) rfl (by simp)
    · rw [hc, ← hch, update_eq_self]
    · intro _ _ _
      unfold Table.onDisk
      rw [hd]
      rfl
    · intro hn _ _
      unfold Table.onDisk
      rw [hd]
      exact ⟨hty hn, rfl⟩
  | @trunc p i hp =>
    have hl := hcount.holds p i (by rw [hp]; rfl)
    obtain ⟨hv, hn, _, _⟩ := h.ending p i (by rw [hp]; rfl)
    have htyped := (h.typed_of_lock hcount hpanic hl hv (by simp [hp])).1
    have hon := onDisk_setDisk (s := s) (x := s.inode i)
      (y := (s.inode i).setDin (s.inode i).din.truncated) (d := (s.inode i).din.truncated) rfl rfl
    rw [Table.truncate_eq]
    refine h.edit hcount hl (x := (s.inode i).setDin (s.inode i).din.truncated) (b := false)
      (c := .untype i) rfl rfl rfl id (.inr ⟨_, rfl⟩) (by simp [hp, Pc.uses, eq_comm])
      (by simp [Pc.uses, eq_comm]) (by simp) (fun _ _ _ => hon.symm) ?_ ?_ (by simp)
      (by simp [Pc.holds]) rfl (by simp)
    · exact fun _ _ _ => ⟨htyped, congrArg Dinode.type hon⟩
    · exact fun _ => ⟨hv, hn, (congrArg Dinode.nlink hon).trans hn,
        fun hf => htyped ((congrArg Dinode.type hon).symm.trans hf)⟩
  | @untype p i hp =>
    have hl := hcount.holds p i (by rw [hp]; rfl)
    have hch := h.not_changed_of_holds hcount (p := p) (i := i) (by rw [hp]; rfl)
    have hd := h.ending p i (by rw [hp]; rfl)
    refine h.edit hcount hl (x := (s.inode i).setDin ((s.inode i).din.setType .free)) (b := false)
      (c := .free i) rfl rfl ?_ id (.inl rfl) (by simp [hp, Pc.uses, eq_comm])
      (by simp [Pc.uses, eq_comm]) (by simp) (by simp) (by simp)
      (fun _ => hd) (by simp) (by simp [Pc.holds]) rfl (by simp)
    rw [← hch, update_eq_self]
    rfl
  | @free p i hp =>
    have hl := hcount.holds p i (by rw [hp]; rfl)
    exact h.edit hcount hl (x := s.inode i) (b := false) (c := .clear i)
      (update_eq_self ..).symm rfl rfl id (.inr ⟨_, rfl⟩) (by simp [hp, Pc.uses, eq_comm])
      (by simp [Pc.uses, eq_comm]) (by simp) (by simp) (by simp)
      (by simp [Pc.ending]) (by simp) (by simp [Pc.holds]) rfl (by simp)
  | @clear p i hp =>
    have hl := hcount.holds p i (by rw [hp]; rfl)
    have hch := h.not_changed_of_holds hcount (p := p) (i := i) (by rw [hp]; rfl)
    refine h.edit hcount hl (x := (s.inode i).clear) (b := false) (c := .unlock i) rfl rfl ?_ id
      (.inl rfl) (by simp [hp, Pc.uses, eq_comm]) (by simp [Pc.uses, eq_comm]) (by simp)
      (by simp [Inode.clear]) (by simp [Inode.clear]) (by simp [Pc.ending]) (fun _ => rfl)
      (by simp [Pc.holds]) rfl (by simp)
    rw [← hch, update_eq_self]
    rfl
  | @unlock p i hp =>
    have hl := hcount.holds p i (by rw [hp]; rfl)
    exact h.unlocked hcount (.inr hp) hl (h.not_changed_of_holds hcount (by rw [hp]; rfl))
      (by simp [Pc.uses, eq_comm]) rfl (by simp) (by simp)
  | @drop p i hp => exact h.dropRef hcount (.inr hp)
  | take hp hf => exact h.take hpanic hp hf
  | @scan p dev inum t c hp hc =>
    refine h.moved (c := c) rfl rfl rfl id rfl (by rw [hp]; rfl) ?_ (by simp [hp, Pc.holds]) ?_
    · rcases hc with rfl | rfl <;> rfl
    · grind

end Coherent
end Xv6.Itable
