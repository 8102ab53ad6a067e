import Xv6.Vm.Grow

/-! The stack that `exec` gives to a new program: a guard page, the argument strings and the array
of pointers to them. -/
namespace Xv6.Vm
open Hoare Radix List LittleEndian
variable {E : Panic → Prop} {m t u v w : Mem} {root tf n sz sp base top : ℕ}
  {argv : List (List UInt8)}

def sub64 (a b : ℕ) : ℕ := u64 (a + 2 ^ 64 - b)

/-- The loop that pushes the argument strings: the stack pointer and `ustack` after it, or `none`
where the code goes to `bad`. -/
def pushStrings (pagetable stackbase : ℕ) :
    List (List UInt8) → ℕ → List ℕ → VmM (Option (ℕ × List ℕ))
  | [], sp, ustack => return some (sp, ustack)
  | arg :: argv, sp, ustack => do
    if maxarg ≤ ustack.length then return none
    else
      let sp := sub64 sp (arg.length + 1)
      let sp := sub64 sp (sp % 16)
      if sp < stackbase then return none
      else if ← copyout pagetable sp (arg ++ [0]) then
        pushStrings pagetable stackbase argv sp (ustack ++ [sp])
      else return none

/-- The strings and the array of pointers: `argc` and the stack pointer. -/
def pushStack (pagetable sz : ℕ) (argv : List (List UInt8)) : VmM (Option (ℕ × ℕ)) := do
  let stackbase := sub64 sz (userstack * pgsize)
  match ← pushStrings pagetable stackbase argv sz [] with
  | none => return none
  | some (sp, ustack) =>
    let argc := ustack.length
    let sp := sub64 sp ((argc + 1) * 8)
    let sp := sub64 sp (sp % 16)
    if sp < stackbase then return none
    else if ← copyout pagetable sp ((ustack ++ [0]).flatMap fun a => LittleEndian.bytes a 8) then
      return some (argc, sp)
    else return none

structure Image where
  ret : ℕ
  a1 : ℕ
  sp : ℕ
  sz : ℕ

/-- `exec` once the program has been loaded, up to the switch to the new page table. -/
def execStack (pagetable sz : ℕ) (argv : List (List UInt8)) : VmM (Option Image) := do
  let sz := pgroundup sz
  let sz1 ← uvmalloc pagetable sz (u64 (sz + (userstack + 1) * pgsize)) pteW
  if sz1 = 0 then
    procFreepagetable pagetable sz
    return none
  else
    uvmclear pagetable (sub64 sz1 ((userstack + 1) * pgsize))
    match ← pushStack pagetable sz1 argv with
    | none =>
      procFreepagetable pagetable sz1
      return none
    | some (argc, sp) => return some { ret := argc, a1 := sp, sp := sp, sz := sz1 }

private theorem sub64_eq {a b : ℕ} (h : b ≤ a) (ha : a < 2 ^ 64) : sub64 a b = a - b := by
  rw [sub64, u64, Nat.sub_add_comm h, Nat.add_mod_right, Nat.mod_eq_of_lt (by omega)]

/-- The room that `len` bytes take on the stack. -/
def room (len : ℕ) : ℕ := (len + 15) / 16 * 16

private theorem le_room (len : ℕ) : len ≤ room len := by
  simp only [room]
  omega

private theorem room_le {len : ℕ} (h : len ≤ pgsize) : room len ≤ pgsize := by
  simp only [room, pgsize] at h ⊢
  omega

theorem push_eq {len : ℕ} (hal : sp % 16 = 0) (hlen : len ≤ pgsize) (hsp : pgsize ≤ sp)
    (hlt : sp < 2 ^ 64) :
    sub64 (sub64 sp len) (sub64 sp len % 16) = sp - room len ∧ (sp - room len) % 16 = 0 := by
  rw [sub64_eq (hlen.trans hsp) hlt, sub64_eq (Nat.mod_le _ _) (by omega)]
  simp only [room, pgsize] at hlen hsp ⊢
  omega

def stringsRoom (argv : List (List UInt8)) : ℕ := (argv.map fun a => room (a.length + 1)).sum

/-- The strings and the array, each at an address that is a multiple of 16, fit in the stack. -/
def Fits (argv : List (List UInt8)) : Prop :=
  stringsRoom argv + room ((argv.length + 1) * 8) ≤ userstack * pgsize

instance (argv : List (List UInt8)) : Decidable (Fits argv) :=
  inferInstanceAs (Decidable (_ ≤ _))

namespace Within
variable {lo hi lo' hi' : ℕ}

theorem mono (h : Within root lo hi m t) (hlo : lo' ≤ lo) (hhi : hi ≤ hi') :
    Within root lo' hi' m t := by
  refine ⟨h.kernel, h.free, fun b o hne => ?_⟩
  obtain ⟨x, hx, hrest⟩ := h.page b o hne
  exact ⟨x, ⟨hlo.trans hx.1, hx.2.trans_le hhi⟩, hrest⟩

theorem trans (ha : m.Unaliased root) (h : Within root lo hi m t) (h' : Within root lo hi t u) :
    Within root lo hi m u := by
  refine ⟨h.kernel.trans h'.kernel, h'.free.trans h.free, fun b o hne => ?_⟩
  by_cases heq : u.page b o = t.page b o
  · rw [heq] at hne
    exact h.page b o hne
  · obtain ⟨x, hx, hw, hb, ho⟩ := h'.page b o heq
    exact ⟨x, hx, (h.writable ha).mp hw, hb.trans (h.frame ha x), ho⟩

theorem userByte (h : Within root lo hi m t) (ha : m.Unaliased root) {x : ℕ}
    (hx : m.Readable root x) (hout : ¬ (lo ≤ x ∧ x < hi)) :
    t.userByte root x = m.userByte root x := by
  unfold Mem.userByte
  rw [h.frame ha]
  by_contra hne
  obtain ⟨y, hy, hw, hb, ho⟩ := h.page _ _ hne
  rw [ha.eq hw hx hb.symm ho.symm] at hy
  exact hout hy

end Within

theorem UserSpace.within {lo hi : ℕ} (h : UserSpace m root tf n) (hw : Within root lo hi m t) :
    UserSpace t root tf n := by
  refine h.congr hw.kernel (h.pool.sub hw.kernel ?_ fun b hb => ?_) (fun b hb => ?_) fun b hb =>
    hw.tables h.space.unaliased hb
  · rw [hw.free]
    exact h.pool.nodup
  · rwa [hw.free] at hb
  · rw [hw.free] at hb
    exact h.space.ne_of_free hb

theorem copyout_writable {dst : ℕ} {src : List UInt8} (ha : m.Unaliased root)
    (hw : ∀ x, dst ≤ x → x < dst + src.length → m.Writable root x) :
    wp (copyout root dst src) (fun r t => r = true ∧ Stored root dst src m t) E m := by
  refine wp_post (copyoutLoop_stored src.length m dst src le_rfl ha) ?_
  rintro r t ⟨hs, hr⟩
  exact ⟨hr.mpr fun k hk => hw _ (Nat.le_add_right dst k) (by omega), hs⟩

/-- Copies of the strings `argv`, each with a NUL, stand at the addresses `ptrs`, one below the
other between `lo` and `hi`. -/
inductive Strings (root : ℕ) (w : Mem) (lo : ℕ) : List (List UInt8) → List ℕ → ℕ → Prop
  | nil {hi : ℕ} : lo ≤ hi → Strings root w lo [] [] hi
  | cons {hi p : ℕ} {a : List UInt8} {as : List (List UInt8)} {ps : List ℕ} :
    p + (a.length + 1) ≤ hi → w.userBytes root p (a.length + 1) = a ++ [0] →
    Strings root w lo as ps p → Strings root w lo (a :: as) (p :: ps) hi

namespace Strings
variable {lo hi : ℕ} {ps : List ℕ}
variable (h : Strings root w lo argv ps hi)
include h

theorem le : lo ≤ hi := by
  induction h with
  | nil h => exact h
  | cons hp _ _ ih => omega

theorem length : ps.length = argv.length := by
  induction h with
  | nil _ => rfl
  | cons _ _ _ ih => rw [length_cons, length_cons, ih]

theorem congr (hsame : ∀ x, lo ≤ x → x < hi → t.userByte root x = w.userByte root x) :
    Strings root t lo argv ps hi := by
  induction h with
  | nil h => exact .nil h
  | @cons hi p a as ps hp hs htail ih =>
    refine .cons hp ?_ (ih fun x hlo hx => hsame x hlo (by omega))
    rw [← hs]
    have hle := htail.le
    refine map_congr_left fun k hk => ?_
    have hk := mem_range.mp hk
    exact hsame _ (by omega) (by omega)

theorem get : ∀ i, i < argv.length →
    lo ≤ ps.getD i 0 ∧ ps.getD i 0 + ((argv.getD i []).length + 1) ≤ hi ∧
      w.userBytes root (ps.getD i 0) ((argv.getD i []).length + 1) = argv.getD i [] ++ [0] := by
  induction h with
  | nil _ => exact fun i hi => absurd hi (Nat.not_lt_zero i)
  | @cons hi p a as ps hp hs htail ih =>
    intro i hi'
    cases i with
    | zero => exact ⟨htail.le, hp, hs⟩
    | succ i =>
      obtain ⟨hlo, hhi, hstr⟩ := ih i (Nat.lt_of_succ_lt_succ hi')
      simp only [getD_cons_succ]
      exact ⟨hlo, by omega, hstr⟩

theorem disjoint : ∀ i j, i < j → j < argv.length →
    ps.getD j 0 + ((argv.getD j []).length + 1) ≤ ps.getD i 0 := by
  induction h with
  | nil _ => exact fun i j _ hj => absurd hj (Nat.not_lt_zero j)
  | @cons hi p a as ps hp hs htail ih =>
    intro i j hij hj
    obtain ⟨j, rfl⟩ := Nat.exists_eq_succ_of_ne_zero (Nat.ne_zero_of_lt hij)
    cases i with
    | zero => exact (htail.get j (Nat.lt_of_succ_lt_succ hj)).2.1
    | succ i => exact ih i j (Nat.lt_of_succ_lt_succ hij) (Nat.lt_of_succ_lt_succ hj)

end Strings

/-- The stack between `base` and `top`, which the user can write, above a page. -/
structure Stack (root base top : ℕ) (m : Mem) : Prop where
  unaliased : m.Unaliased root
  writable : ∀ x, base ≤ x → x < top → m.Writable root x
  low : pgsize ≤ base
  high : top < 2 ^ 64

theorem Stack.within {lo hi : ℕ} (h : Stack root base top m) (hw : Within root lo hi m t) :
    Stack root base top t :=
  ⟨hw.unaliased h.unaliased, fun x hlo hhi => (hw.writable h.unaliased).mpr (h.writable x hlo hhi),
    h.low, h.high⟩

def Pushed (root base sp : ℕ) (argv : List (List UInt8)) (ustack : List ℕ) (m : Mem)
    (r : Option (ℕ × List ℕ)) (t : Mem) : Prop :=
  match r with
  | none => sp < base + stringsRoom argv ∧ Within root base sp m t
  | some (sp', us) => (base ≤ sp' ∧ sp' + stringsRoom argv = sp ∧ sp' % 16 = 0) ∧
      Within root sp' sp m t ∧ ∃ ps, us = ustack ++ ps ∧ Strings root t sp' argv ps sp

theorem stringsRoom_cons (a : List UInt8) (argv : List (List UInt8)) :
    stringsRoom (a :: argv) = room (a.length + 1) + stringsRoom argv := by
  rw [stringsRoom, map_cons, sum_cons, stringsRoom]

theorem pushStrings_spec (argv : List (List UInt8)) : ∀ (m : Mem) (sp : ℕ) (ustack : List ℕ),
    Stack root base top m → sp % 16 = 0 → base ≤ sp → sp ≤ top →
    ustack.length + argv.length ≤ maxarg → (∀ a ∈ argv, a.length < pgsize) →
    wp (pushStrings root base argv sp ustack) (Pushed root base sp argv ustack m) E m := by
  induction argv with
  | nil =>
    intro m sp ustack _ hal hlo _ _ _
    exact ⟨⟨hlo, rfl, hal⟩, Within.refl root sp sp m, [], (append_nil _).symm, .nil le_rfl⟩
  | cons a argv ih =>
    intro m sp ustack hst hal hlo hhi hmax hlen
    have ha : a.length + 1 ≤ pgsize := hlen a mem_cons_self
    have hlow := hst.low
    have hhigh := hst.high
    obtain ⟨hpush, hal'⟩ := push_eq hal ha (by omega) (by omega)
    have hroom := le_room (a.length + 1)
    have hroom' := room_le ha
    unfold pushStrings
    rw [length_cons] at hmax
    rw [if_neg (by omega)]
    simp only [hpush]
    refine wp_ite.mpr ⟨fun hlt => ⟨?_, Within.refl root base sp m⟩, fun hge => ?_⟩
    · rw [stringsRoom_cons]
      omega
    have hsrc : (a ++ [0]).length = a.length + 1 := by simp
    have hw x (hxlo : sp - room (a.length + 1) ≤ x)
        (hxhi : x < sp - room (a.length + 1) + (a ++ [0]).length) : m.Writable root x := by
      exact hst.writable x (by omega) (by omega)
    refine wp_seq (copyout_writable hst.unaliased hw) ?_
    rintro r u ⟨rfl, hs⟩
    rw [if_pos rfl]
    have hsw := hs.within.mono le_rfl (show _ ≤ sp by omega)
    have hstu := hst.within hsw
    refine wp_post (ih u _ (ustack ++ [sp - room (a.length + 1)]) hstu hal' (by omega) (by omega)
      (by rw [length_append, length_singleton]; omega)
      fun b hb => hlen b (mem_cons_of_mem a hb)) ?_
    intro r w hr
    cases r with
    | none =>
      obtain ⟨hfull, hin⟩ := hr
      refine ⟨?_, Within.trans hst.unaliased (hsw.mono (by omega) le_rfl)
        (hin.mono le_rfl (by omega))⟩
      rw [stringsRoom_cons]
      omega
    | some p =>
      obtain ⟨⟨hb, hsum, hal''⟩, hin, ps, hps, hstr⟩ := hr
      refine ⟨⟨hb, ?_, hal''⟩, Within.trans hst.unaliased (hsw.mono (by omega) le_rfl)
        (hin.mono le_rfl (by omega)), _ :: ps, ?_, .cons (by omega) ?_ hstr⟩
      · rw [stringsRoom_cons]
        omega
      · rw [hps, append_assoc, singleton_append]
      · have hbytes := hs.userBytes hst.unaliased fun k hk =>
          hw _ (Nat.le_add_right _ k) (by omega)
        rw [hsrc] at hbytes
        rw [← hbytes]
        refine map_congr_left fun k hk => ?_
        have hk := mem_range.mp hk
        exact hin.userByte hstu.unaliased (hstu.writable _ (by omega) (by omega)).1 (by omega)

def Mem.userWord (m : Mem) (root va : ℕ) : ℕ :=
  LittleEndian.word (fun k => m.userByte root (va + k)) 8

theorem Stored.userWord {dst i : ℕ} {l : List ℕ}
    (h : Stored root dst (l.flatMap fun a => LittleEndian.bytes a 8) m t) (ha : m.Unaliased root)
    (hw : ∀ x, dst ≤ x → x < dst + l.length * 8 → m.Writable root x) (hi : i < l.length) :
    t.userWord root (dst + 8 * i) = l.getD i 0 % 2 ^ 64 := by
  have hlen := length_words l 8
  have hbyte k (hk : k < 8) : t.userByte root (dst + 8 * i + k) = LittleEndian.byte
      (l.getD i 0) k := by
    rw [h.userByte ha (fun j hj => hw _ (Nat.le_add_right dst j) (by omega))
      (hw _ (by omega) (by omega)).1, if_pos ⟨by omega, by omega⟩,
      show dst + 8 * i + k - dst = 8 * i + k by omega]
    exact getD_words l hi hk
  rw [Mem.userWord, word_congr hbyte, word_byte, show 256 ^ 8 = 2 ^ 64 by norm_num]

/-- The stack of a program with the arguments `argv`: at `sp` an array of pointers to the strings
with a null pointer after them, above it the strings, nothing overlapping. -/
structure Laid (root base top : ℕ) (argv : List (List UInt8)) (sp : ℕ) (t : Mem) : Prop where
  aligned : sp % 16 = 0
  range : base ≤ sp ∧ sp < top
  user : ∀ x, base ≤ x → x < top → t.Writable root x
  null : t.userWord root (sp + 8 * argv.length) = 0
  string : ∀ i, i < argv.length →
    t.userBytes root (t.userWord root (sp + 8 * i)) ((argv.getD i []).length + 1) =
      argv.getD i [] ++ [0]
  inside : ∀ i, i < argv.length → sp + 8 * (argv.length + 1) ≤ t.userWord root (sp + 8 * i) ∧
    t.userWord root (sp + 8 * i) + ((argv.getD i []).length + 1) ≤ top
  disjoint : ∀ i j, i < j → j < argv.length →
    t.userWord root (sp + 8 * j) + ((argv.getD j []).length + 1) ≤ t.userWord root (sp + 8 * i)

theorem Strings.laid {ps : List ℕ} (hst : Stack root base top m)
    (h : Strings root m sp argv ps top) (hq : base + room ((argv.length + 1) * 8) ≤ sp)
    (hal : (sp - room ((argv.length + 1) * 8)) % 16 = 0)
    (hs : Stored root (sp - room ((argv.length + 1) * 8))
      ((ps ++ [0]).flatMap fun a => LittleEndian.bytes a 8) m t) :
    Laid root base top argv (sp - room ((argv.length + 1) * 8)) t := by
  have hroom := le_room ((argv.length + 1) * 8)
  have hsp := h.le
  have hhigh := hst.high
  have hn : (ps ++ [0]).length = argv.length + 1 := by
    rw [length_append, h.length, length_singleton]
  have hlen := length_words (ps ++ [0]) 8
  rw [hn] at hlen
  generalize hqe : sp - room ((argv.length + 1) * 8) = q at hs hal ⊢
  have hw x (hlo : q ≤ x) (hhi : x < q + (ps ++ [0]).length * 8) : m.Writable root x := by
    rw [hn] at hhi
    exact hst.writable x (by omega) (by omega)
  have hword i (hi : i < argv.length + 1) : t.userWord root (q + 8 * i) =
      (ps ++ [0]).getD i 0 % 2 ^ 64 :=
    hs.userWord hst.unaliased hw (by omega)
  have hptr : ∀ i < argv.length, t.userWord root (q + 8 * i) = ps.getD i 0 := by
    intro i hi
    have hi' : i < ps.length := by rwa [h.length]
    have hget := (h.get i hi).2.1
    rw [hword i (by omega), List.getD_append _ _ _ _ hi', Nat.mod_eq_of_lt (by omega)]
  have hin := hs.within
  have hstr : Strings root t sp argv ps top := by
    refine h.congr fun x hlo hhi => ?_
    exact hin.userByte hst.unaliased (hst.writable x (by omega) hhi).1 (by omega)
  refine ⟨hal, ⟨by omega, by omega⟩, (hst.within hin).writable, ?_, fun i hi => ?_, fun i hi => ?_,
    fun i j hij hj => ?_⟩
  · rw [hword _ (by omega), getD_append_right _ _ _ _ (by rw [h.length]), h.length, Nat.sub_self]
    rfl
  · rw [hptr i hi]
    exact (hstr.get i hi).2.2
  · have hget := hstr.get i hi
    rw [hptr i hi]
    exact ⟨by omega, hget.2.1⟩
  · rw [hptr i (hij.trans hj), hptr j hj]
    exact hstr.disjoint i j hij hj

theorem pushStack_spec (hst : Stack root (sz - userstack * pgsize) sz m) (hal : sz % 16 = 0)
    (hmax : argv.length < maxarg) (hlen : ∀ a ∈ argv, a.length < pgsize) :
    wp (pushStack root sz argv) (fun r t => Within root (sz - userstack * pgsize) sz m t ∧
      (r = none ↔ ¬ Fits argv) ∧ ∀ argc sp, r = some (argc, sp) →
        argc = argv.length ∧ Laid root (sz - userstack * pgsize) sz argv sp t) E m := by
  have hlow := hst.low
  have hhigh := hst.high
  have hbase : sub64 sz (userstack * pgsize) = sz - userstack * pgsize :=
    sub64_eq (by simp only [pgsize] at hlow ⊢; omega) hhigh
  have hsz : sz - userstack * pgsize + userstack * pgsize = sz :=
    Nat.sub_add_cancel (by simp only [pgsize] at hlow ⊢; omega)
  unfold pushStack
  simp only [hbase, wp_bind]
  generalize sz - userstack * pgsize = base at hst hlow hsz ⊢
  have hfull : ∀ {t : Mem}, Within root base sz m t → ¬ Fits argv →
      Within root base sz m t ∧ ((none : Option (ℕ × ℕ)) = none ↔ ¬ Fits argv) ∧
        ∀ argc sp, none = some (argc, sp) → argc = argv.length ∧ Laid root base sz argv sp t :=
    fun hin hfit => ⟨hin, ⟨fun _ => hfit, fun _ => rfl⟩, fun _ _ hs => by cases hs⟩
  refine wp_post (pushStrings_spec argv m sz [] hst hal (by omega) le_rfl
    (by rw [length_nil]; omega) hlen) ?_
  intro r w hr
  cases r with
  | none =>
    refine hfull hr.2 fun hfit => ?_
    have hlt := hr.1
    unfold Fits at hfit
    omega
  | some p =>
    obtain ⟨sp, us⟩ := p
    obtain ⟨⟨hb, hsum, hal'⟩, hin, ps, hps, hstr⟩ := hr
    rw [nil_append] at hps
    subst hps
    have hstw := hst.within hin
    have hargc : (argv.length + 1) * 8 ≤ pgsize := by
      simp only [maxarg, pgsize] at hmax ⊢
      omega
    have hroom := room_le hargc
    have hle := le_room ((argv.length + 1) * 8)
    obtain ⟨hpush, hal''⟩ := push_eq hal' hargc (by omega) (by omega)
    simp only [hstr.length, hpush]
    refine wp_ite.mpr ⟨fun hlt => hfull (hin.mono hb le_rfl) fun hfit => ?_, fun hge => ?_⟩
    · unfold Fits at hfit
      omega
    have hwords := length_words (us ++ [0]) 8
    rw [length_append, hstr.length, length_singleton] at hwords
    refine wp_seq (copyout_writable hstw.unaliased fun x hlo hhi =>
      hstw.writable x (by omega) (by omega)) ?_
    rintro r t ⟨rfl, hs⟩
    have hfit : Fits argv := by
      unfold Fits
      omega
    rw [if_pos rfl]
    refine ⟨Within.trans hst.unaliased (hin.mono hb le_rfl)
      (hs.within.mono (by omega) (by omega)), ⟨fun hs => (by cases hs), fun hn => absurd hfit hn⟩,
      fun argc sp' hsome => ?_⟩
    cases hsome
    exact ⟨rfl, hstr.laid hstw (by omega) hal'' hs⟩

def noUser (e : ℕ) : ℕ := e &&& (2 ^ 64 - 1 - pteU)

private theorem noUser_and (e : ℕ) {bit : ℕ} (h : (2 ^ 64 - 1 - pteU) &&& bit = bit) :
    noUser e &&& bit = e &&& bit := by
  rw [noUser, Nat.and_assoc, h]

theorem noUser_pteU (e : ℕ) : noUser e &&& pteU = 0 := by
  rw [noUser, Nat.and_assoc, show (2 ^ 64 - 1 - pteU) &&& pteU = 0 by decide]
  exact Nat.and_zero e

theorem pte2pa_noUser {e : ℕ} (h : e < 2 ^ 64) : pte2pa (noUser e) = pte2pa e := by
  have hmask : (2 ^ 64 - 1 - pteU) >>> 10 = 2 ^ 54 - 1 := by decide
  rw [pte2pa, pte2pa, noUser, Nat.shiftRight_and_distrib, hmask, Nat.and_two_pow_sub_one_eq_mod,
    Nat.mod_eq_of_lt]
  rw [Nat.shiftRight_eq_div_pow]
  omega

private theorem lookup_lt (m : Mem) (root va : ℕ) : m.lookup root va < 2 ^ 64 := by
  cases hl : leaf child m.pte (path va) 2 root with
  | none =>
    rw [lookup_eq_zero hl]
    norm_num
  | some b =>
    rw [lookup_of_leaf hl, Mem.pte]
    exact (word_lt 8).trans_le (by norm_num)

/-- The process keeps the page that the user cannot reach any more. -/
theorem UserSpace.cleared {i : ℕ} (h : UserSpace m root tf n) (hi : i < n)
    (hr : m.lookup root (i * pgsize) &&& pteR ≠ 0)
    (hs : EntrySet root (i * pgsize) (noUser (m.lookup root (i * pgsize))) m t) :
    UserSpace t root tf n := by
  have hdiv j : j * pgsize / pgsize = j := Nat.mul_div_cancel j (by decide)
  have hother : ∀ x < sv39, x / pgsize ≠ i → t.lookup root x = m.lookup root x := by
    intro x hx hne
    exact hs.others x hx (by rwa [hdiv])
  have hold : ∀ j < n, j ≠ i → t.lookup root (j * pgsize) = m.lookup root (j * pgsize) :=
    fun j hj hne => hother _ (h.space.page_lt_sv39 hj.le) (by rwa [hdiv])
  have hframe : ∀ j < n, t.frame root (0 + j * pgsize) = m.frame root (0 + j * pgsize) := by
    intro j hj
    rw [Nat.zero_add, Mem.frame, Mem.frame]
    by_cases hji : j = i
    · rw [hji, hs.self, pte2pa_noUser (lookup_lt m root _)]
    · rw [hold j hj hji]
  have hleaf : t.IsLeaf root (i * pgsize) := by
    rw [Mem.IsLeaf, hs.self, noUser_and _ (by decide)]
    refine ⟨(h.space.leaf i hi).1, fun hfl => hr ?_⟩
    have hbit : (2 ^ 64 - 1 - pteU) &&& pteR = pteR := by decide
    rw [← noUser_and (m.lookup root (i * pgsize)) hbit,
      show (pteR : ℕ) = 0x3FF &&& pteR by decide, ← Nat.and_assoc]
    rw [pteFlags] at hfl
    rw [hfl]
    rfl
  refine ⟨h.pool.sub hs.kernel ?_ fun b hb => ?_, ⟨hs.table, fun j hj => ?_, ⟨fun j hj => ?_,
    fun j hj => ?_, fun j hj => ?_, fun j k hjk hk => ?_⟩, fun x hx hn => ?_⟩, fun x hx hn => ?_,
    fun b hb => ?_⟩
  · rw [hs.free]
    exact h.pool.nodup
  · rwa [hs.free] at hb
  · by_cases hji : j = i
    · rwa [hji]
    · rw [Mem.IsLeaf, hold j hj hji]
      exact h.space.leaf j hj
  · rw [hframe j hj, hs.kernel.1]
    exact h.space.frames.range j hj
  · rw [hframe j hj, hs.tables]
    exact h.space.frames.tables j hj
  · rw [hframe j hj, hs.free]
    exact h.space.frames.free j hj
  · rw [hframe j (hjk.trans hk), hframe k hk]
    exact h.space.frames.inj j k hjk hk
  · rw [hother x hx (by omega)]
    exact h.space.above x hx hn
  · rw [hother x hx (by omega), hs.kernel.2]
    exact h.upper x hx hn
  · rw [hs.tables] at hb
    rw [hs.kernel.1]
    exact h.nodes b hb

theorem UserSpace.uvmclear {i : ℕ} (h : UserSpace m root tf n) (hi : i < n)
    (hr : m.lookup root (i * pgsize) &&& pteR ≠ 0) :
    wp (uvmclear root (i * pgsize)) (fun _ t => UserSpace t root tf n ∧
      EntrySet root (i * pgsize) (noUser (m.lookup root (i * pgsize))) m t) E m := by
  have hlt : i * pgsize < maxva := by
    have hle := Nat.mul_le_mul_right pgsize hi.le
    exact (hle.trans h.space.le).trans_lt (by norm_num [phystop, kernbase, maxva])
  unfold Vm.uvmclear
  refine wp_seq (walk_false hlt) ?_
  rintro r t ⟨rfl, rfl⟩
  cases hl : leaf child t.pte (path (i * pgsize)) 2 root with
  | none => exact absurd (by rw [lookup_eq_zero hl]; rfl) hr
  | some b =>
    have hlook := lookup_of_leaf hl
    have hset := entrySet_of_leaf h.space.table hlt
      ((Nat.and_le_left).trans_lt (lookup_lt t root (i * pgsize)) :
        noUser (t.lookup root (i * pgsize)) < 2 ^ 64) hl
    simp only [Option.map_some, wp_modify]
    rw [← hlook]
    exact ⟨h.cleared hi hr hset, hset⟩

theorem Grown.stack (hg : Grown m root tf n (pteR ||| pteU ||| pteW) (userstack + 1) u)
    (hv : UserSpace v root tf (n + (userstack + 1)))
    (hs : EntrySet root (n * pgsize) (noUser (u.lookup root (n * pgsize))) u v) :
    Stack root ((n + 1) * pgsize) ((n + (userstack + 1)) * pgsize) v := by
  have hdiv j : j * pgsize / pgsize = j := Nat.mul_div_cancel j (by decide)
  have hle := hv.space.le
  have hmax : phystop < maxva := by norm_num [phystop, kernbase, maxva]
  refine ⟨hv.space.unaliased, fun x hlo hhi => ?_, Nat.le_mul_of_pos_left _ (Nat.succ_pos n),
    (hle.trans_lt hmax).trans (by norm_num [maxva])⟩
  have hx : x < maxva := (hhi.trans_le hle).trans hmax
  have hpage : n + 1 ≤ x / pgsize ∧ x / pgsize < n + (userstack + 1) :=
    ⟨(Nat.le_div_iff_mul_le (by decide)).mpr hlo, (Nat.div_lt_iff_lt_mul (by decide)).mpr hhi⟩
  obtain ⟨j, hj⟩ := Nat.exists_eq_add_of_le (Nat.le_of_succ_le hpage.1)
  obtain ⟨mem, hmem⟩ := hg.entry j (by omega)
  have hlook : v.lookup root x = pa2pte mem ||| (pteR ||| pteU ||| pteW) ||| pteV := by
    rw [hs.others x (lt_sv39 hx) (by rw [hdiv]; omega), ← hmem]
    refine lookup_page (hg.user.space.page_lt_sv39 (by omega)) (lt_sv39 hx) ?_
    rw [hdiv, hj]
  rw [Mem.Writable, Mem.Readable, hlook, entry_and (by decide) (by decide),
    entry_and (by decide) (by decide), entry_and (by decide) (by decide)]
  exact ⟨⟨hx, by decide, by decide⟩, by decide⟩

/-- Where memory suffices, the stack of the new program is laid out as the program expects it, or
the arguments do not fit; in both cases nothing below the stack has been written. -/
theorem exec_builds_stack {sz1 : ℕ} (h : UserSpace m root tf (npages sz))
    (hmax : argv.length < maxarg) (hlen : ∀ a ∈ argv, a.length < pgsize)
    (halloc : uvmalloc root (pgroundup sz) (u64 (pgroundup sz + (userstack + 1) * pgsize)) pteW m =
      .ok (sz1, u)) (hne : sz1 ≠ 0) :
    ∃ v w q r t, uvmclear root (sub64 sz1 ((userstack + 1) * pgsize)) u = .ok ((), v) ∧
      pushStack root sz1 argv v = .ok (q, w) ∧
      Within root (sz1 - userstack * pgsize) sz1 v w ∧
      execStack root sz argv m = .ok (r, t) ∧ (r = none ↔ ¬ Fits argv) ∧
      ∀ img, r = some img → t = w ∧ img.ret = argv.length ∧ img.a1 = img.sp ∧ img.sz = sz1 ∧
        Laid root (sz1 - userstack * pgsize) sz1 argv img.sp t ∧
        ∀ x, x / pgsize + 1 = (sz1 - userstack * pgsize) / pgsize → ¬ t.Readable root x := by
  have hdiv j : j * pgsize / pgsize = j := Nat.mul_div_cancel j (by decide)
  have hsz := h.size_le
  have hle := h.space.le
  have hup : pgroundup sz = npages sz * pgsize := pgroundup_eq (hsz.trans (by norm_num))
  have hnew : u64 (pgroundup sz + (userstack + 1) * pgsize) =
      (npages sz + (userstack + 1)) * pgsize := by
    rw [hup, ← Nat.add_mul, u64, Nat.mod_eq_of_lt]
    rw [Nat.add_mul]
    exact (Nat.add_le_add_right hle _).trans_lt (by norm_num [phystop, kernbase, pgsize])
  have hstart : UserSpace m root tf (npages (pgroundup sz)) := by rwa [hup, npages_mul]
  have hg := wp_ok (hstart.uvmalloc (E := fun _ => False) (by decide) (by decide)
    (by rw [hnew, hup]; exact Nat.mul_le_mul_right _ (Nat.le_add_right _ _))) halloc
  rcases hg with ⟨hsz1, hg⟩ | ⟨h0, _⟩
  swap
  · exact absurd h0 hne
  rw [hnew] at hsz1
  rw [hnew, hup, npages_mul, npages_mul, Nat.add_sub_cancel_left] at hg
  have hclear : sub64 sz1 ((userstack + 1) * pgsize) = npages sz * pgsize := by
    have hlt := hg.user.space.le.trans_lt (show phystop < 2 ^ 64 by norm_num [phystop, kernbase])
    rw [hsz1, sub64_eq (Nat.mul_le_mul_right _ (Nat.le_add_left _ _)) hlt, Nat.add_mul,
      Nat.add_sub_cancel]
  have hbase : sz1 - userstack * pgsize = (npages sz + 1) * pgsize := by
    rw [hsz1, ← Nat.sub_mul]
    rfl
  obtain ⟨mem, hmem⟩ := hg.entry 0 (Nat.succ_pos _)
  rw [Nat.add_zero] at hmem
  have hread : u.lookup root (npages sz * pgsize) &&& pteR ≠ 0 := by
    rw [hmem, entry_and (by decide) (by decide)]
    decide
  obtain ⟨_, v, hv, huv, hset⟩ := wp_total (hg.user.uvmclear (by omega) hread)
  have hst := hg.stack huv hset
  rw [← hsz1, ← hbase] at hst
  have hal : sz1 % 16 = 0 := by
    rw [hsz1]
    simp only [pgsize]
    omega
  obtain ⟨q, w, hq, hin, hfit, hlaid⟩ := wp_total (pushStack_spec hst hal hmax hlen)
  have huw : UserSpace w root tf (npages sz1) := by
    rw [hsz1, npages_mul]
    exact huv.within hin
  -- the page below the stack is the one that `uvmclear` took from the user
  have hguard : ∀ x, x / pgsize + 1 = (sz1 - userstack * pgsize) / pgsize →
      ¬ w.Readable root x := by
    intro x hx hr
    rw [hbase, hdiv] at hx
    have hxr := (hin.readable hst.unaliased).mp hr
    refine hxr.2.2 ?_
    rw [← lookup_page (lt_sv39 hxr.1) (huv.space.page_lt_sv39 (Nat.le_add_right _ _))
      (by rw [hdiv]; omega), hset.self]
    exact noUser_pteU _
  have hexec : wp (execStack root sz argv) (fun r t => (r = none ↔ ¬ Fits argv) ∧
      ∀ img, r = some img → t = w ∧ q = some (img.ret, img.sp) ∧ img.a1 = img.sp ∧ img.sz = sz1)
      (fun _ => False) m := by
    unfold execStack
    rw [wp_bind]
    refine wp_run halloc ?_
    rw [if_neg hne, hclear, wp_bind]
    refine wp_run hv ?_
    rw [wp_bind]
    refine wp_run hq ?_
    cases q with
    | none =>
      refine wp_seq huw.procFreepagetable (fun _ t _ => ?_)
      exact ⟨⟨fun _ => hfit.mp rfl, fun _ => rfl⟩, fun _ hs => by cases hs⟩
    | some p =>
      refine ⟨⟨fun hs => (by cases hs), fun hn => ?_⟩, fun img hs => ?_⟩
      · cases hfit.mpr hn
      · cases hs
        exact ⟨rfl, rfl, rfl, rfl⟩
  obtain ⟨r, t, hrun, hnone, hsome⟩ := wp_total hexec
  refine ⟨v, w, q, r, t, by rw [hclear]; exact hv, hq, hin, hrun, hnone, fun img hr => ?_⟩
  obtain ⟨rfl, hqi, ha1, hszi⟩ := hsome img hr
  obtain ⟨hret, hl⟩ := hlaid _ _ hqi
  exact ⟨rfl, hret, ha1, hszi, hl, hguard⟩

theorem exec_builds_stack_ls_al : ∃ img t,
    execStack 0x80010000 0 [[108, 115], [45, 97, 108]] newProc = .ok (some img, t) ∧
      Laid 0x80010000 pgsize (3 * pgsize) [[108, 115], [45, 97, 108]] img.sp t := by
  have halloc : (uvmalloc 0x80010000 (pgroundup 0) (u64 (pgroundup 0 + (userstack + 1) * pgsize))
      pteW newProc).toOption.map Prod.fst = some (3 * pgsize) := by decide +kernel
  obtain ⟨⟨sz1, u⟩, hrun, rfl⟩ := Option.map_eq_some_iff.mp halloc
  obtain ⟨v, w, q, r, t, _, _, _, hexec, hnone, hsome⟩ := exec_builds_stack userSpace_newProc
    (show [[108, 115], [45, 97, 108]].length < maxarg by decide) (by decide)
    (toOption_eq_some.mp hrun) (by decide)
  have hfit : Fits [[108, 115], [45, 97, 108]] := by decide
  cases r with
  | none => exact absurd hfit (hnone.mp rfl)
  | some img =>
    obtain ⟨_, _, _, _, hlaid, _⟩ := hsome img rfl
    exact ⟨img, t, hexec, hlaid⟩

end Xv6.Vm
