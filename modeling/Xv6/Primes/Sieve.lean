import Xv6.Lib.Sieve
import Xv6.Primes.Model

/-! What the processes of `primes.c` print. The numbers on pipe `k` are those that `k` rounds of
the sieve leave, in order, and the process at the end of the chain is the only one that can
print. -/
namespace Xv6.Primes
open Transition Sieve List
attribute [local simp] Pipe.close
variable {n : ℕ} {s t : State}

def stream (n : ℕ) : ℕ → List ℕ
  | 0 => List.range' 2 (n - 1)
  | k + 1 => sift (stream n k)

namespace PC

def outEnd : PC → ℕ
  | .mainFork | .feed _ | .fork _ | .loop _ | .write _ _ | .closeOut => 1
  | _ => 0

def inEnd : PC → ℕ
  | .closeChild => 1
  | _ => 0

def forked : PC → Bool
  | .feed _ | .loop _ | .write _ _ | .closeOut | .wait | .exited => true
  | _ => false

@[grind] def MainDoes (n : ℕ) (data : List ℕ) : PC → Prop
  | .mainPipe | .mainFork => data = []
  | .feed i => 2 ≤ i ∧ i - 2 ≤ n - 1 ∧ data = List.range' 2 (i - 2)
  | .closeOut | .wait | .exited => data = stream n 0
  | _ => False

@[grind] def StageDoes (n k : ℕ) (taken data : List ℕ) : PC → Prop
  | .absent | .closeChild | .first => taken = [] ∧ data = []
  | .print p _ | .pipe p | .fork p => taken = [p] ∧ data = []
  | .loop p => ∃ c, taken = p :: c ∧ data = sift (p :: c)
  | .write p num => ∃ c, taken = p :: (c ++ [num]) ∧ data ++ [num] = sift (p :: (c ++ [num]))
  | .closeOut | .wait | .exited => data = stream n (k + 1)
  | .gone => stream n k = [] ∧ data = []
  | _ => False

end PC

attribute [local simp] PC.StageDoes

@[grind cases] structure Inv (n : ℕ) (s : State) : Prop where
  bound : ∀ j, (s.pipe j).nread ≤ (s.pipe j).data.length
  writers : ∀ j, (s.pipe j).writers = (s.pc j).outEnd + (s.pc (j + 1)).inEnd
  child : ∀ k, s.pc (k + 1) ≠ .absent ↔ (s.pc k).forked = true
  main : (s.pc 0).MainDoes n (s.pipe 0).data
  stage : ∀ k, (s.pc (k + 1)).StageDoes n k (s.pipe k).taken (s.pipe (k + 1)).data

theorem inv_init : Inv n State.init where
  bound _ := le_rfl
  writers j := by
    obtain rfl | hj := eq_or_ne j 0
    · rfl
    · simp [State.init, hj, Pipe.none, PC.outEnd, PC.inEnd]
  child k := by
    obtain rfl | hk := eq_or_ne k 0
    · simp [State.init, PC.forked]
    · simp [State.init, hk, PC.forked]
  main := rfl
  stage _ := ⟨rfl, rfl⟩

variable {p cap k m : ℕ}

theorem sift_prefix {c l : List ℕ} (h : (p :: c) <+: l) : sift (p :: c) <+: sift l := by
  obtain ⟨r, rfl⟩ := h
  rw [cons_append, sift, sift, filter_append]
  exact prefix_append _ _

namespace Inv

theorem taken_le_data (j : ℕ) : (s.pipe j).taken <+: (s.pipe j).data := take_prefix _ _

/-- What has been written to a pipe is a beginning of its stream. -/
theorem data_prefix (h : Inv n s) (j : ℕ) : (s.pipe j).data <+: stream n j := by
  induction j with
  | zero =>
    have hm := h.main
    revert hm
    generalize s.pc 0 = c
    cases c <;> intro hm <;> simp only [PC.MainDoes] at hm
    case feed i =>
      refine ⟨List.range' (2 + (i - 2)) (n - 1 - (i - 2)), ?_⟩
      rw [hm.2.2, List.range'_append_1, Nat.add_sub_cancel' hm.2.1, stream]
    case mainPipe | mainFork =>
      rw [hm]
      exact nil_prefix
    case closeOut | wait | exited => rw [hm]
  | succ k ih =>
    have hs := h.stage k
    have hp := (taken_le_data (s := s) k).trans ih
    revert hs
    generalize s.pc (k + 1) = c
    cases c <;> intro hs <;> simp only [PC.StageDoes] at hs
    case loop p =>
      obtain ⟨c, hc, hd⟩ := hs
      rw [hd]
      exact sift_prefix (hc ▸ hp)
    case write p num =>
      obtain ⟨c, hc, hd⟩ := hs
      exact (prefix_append _ [num]).trans (hd ▸ sift_prefix (hc ▸ hp))
    case closeOut | wait | exited => rw [hs]
    all_goals
      rw [hs.2]
      exact nil_prefix

/-- A process that has closed its write end has written its whole stream. -/
theorem complete (h : Inv n s) (hf : (s.pc k).forked = true) (ho : (s.pc k).outEnd = 0) :
    (s.pipe k).data = stream n k := by
  cases k with
  | zero =>
    have hm := h.main
    revert hm hf ho
    generalize s.pc 0 = c
    cases c <;> simp [PC.forked, PC.outEnd, PC.MainDoes]
  | succ k =>
    have hs := h.stage k
    revert hs hf ho
    generalize s.pc (k + 1) = c
    cases c <;> simp [PC.forked, PC.outEnd]

theorem taken_of_eof (h : Inv n s) (hp : s.pc (k + 1) ≠ .absent)
    (hh : s.head (k + 1) = none) (hw : (s.pipe k).writers = 0) : (s.pipe k).taken = stream n k := by
  have ho : (s.pc k).outEnd = 0 := by
    have := h.writers k
    omega
  rw [← h.complete ((h.child k).mp hp) ho]
  exact take_of_length_le (List.getElem?_eq_none_iff.mp hh)

theorem taken_shift (hh : s.head (k + 1) = some m) :
    (s.pipe k).shift.taken = (s.pipe k).taken ++ [m] := by
  have hlt := (List.getElem?_eq_some_iff.mp hh).1
  have hm : (s.pipe k).data[(s.pipe k).nread]? = some m := hh
  rw [Pipe.taken, Pipe.shift, Pipe.taken, take_add_one, hm]
  rfl

theorem taken_push (h : Inv n s) (j m : ℕ) : ((s.pipe j).push m).taken = (s.pipe j).taken := by
  rw [Pipe.taken, Pipe.push, Pipe.taken, take_append_of_le_length (h.bound j)]

theorem move (h : Inv n s) (hpc : ∀ j ≠ k, t.pc j = s.pc j)
    (hfork : (t.pc k).forked = (s.pc k).forked) (habs : t.pc k = .absent ↔ s.pc k = .absent)
    (hdata : ∀ j ≠ k, (t.pipe j).data = (s.pipe j).data)
    (htaken : ∀ j, j + 1 ≠ k → (t.pipe j).taken = (s.pipe j).taken)
    (hbound : ∀ j, (t.pipe j).nread ≤ (t.pipe j).data.length)
    (hwriters : ∀ j, (t.pipe j).writers + (s.pc j).outEnd + (s.pc (j + 1)).inEnd =
      (s.pipe j).writers + (t.pc j).outEnd + (t.pc (j + 1)).inEnd)
    (hmain : k = 0 → (t.pc 0).MainDoes n (t.pipe 0).data)
    (hstage : ∀ j, k = j + 1 → (t.pc (j + 1)).StageDoes n j (t.pipe j).taken
      (t.pipe (j + 1)).data) :
    Inv n t where
  bound := hbound
  writers j := by
    have h1 := h.writers j
    have h2 := hwriters j
    omega
  child j := by grind
  main := by grind
  stage j := by grind

variable {c c' : PC}

theorem quiet (h : Inv n s) (hp : s.pc k = c') (hpipe : t.pipe = s.pipe)
    (hpc : t.pc = Function.update s.pc k c) (hfork : c.forked = c'.forked)
    (habs : c = .absent ↔ c' = .absent) (hout : c.outEnd = c'.outEnd) (hin : c.inEnd = c'.inEnd)
    (hmain : k = 0 → c.MainDoes n (s.pipe 0).data)
    (hstage : ∀ j, k = j + 1 → c.StageDoes n j (s.pipe j).taken (s.pipe (j + 1)).data) :
    Inv n t := by
  subst hp
  have hself : t.pc k = c := by rw [hpc, Function.update_self]
  have hother : ∀ j ≠ k, t.pc j = s.pc j := fun j hj => by rw [hpc, Function.update_of_ne hj]
  have ho j : (t.pc j).outEnd = (s.pc j).outEnd := by grind
  have hi j : (t.pc j).inEnd = (s.pc j).inEnd := by grind
  refine h.move hother (by rw [hself, hfork]) (by rw [hself, habs]) (fun _ _ => by rw [hpipe])
    (fun _ _ => by rw [hpipe]) (fun j => ?_) (fun j => ?_) (fun hk => ?_) fun j hk => ?_
  · rw [hpipe]
    exact h.bound j
  · rw [hpipe, ho, hi]
  · rw [hpipe, ← hk, hself, hk]
    exact hmain hk
  · rw [hpipe, ← hk, hself, hk]
    exact hstage j hk

theorem read (h : Inv n s) (hp : s.pc (k + 1) = c') (hh : s.head (k + 1) = some m)
    (hfork : c.forked = c'.forked) (habs : c = .absent ↔ c' = .absent) (hout : c.outEnd = c'.outEnd)
    (hin : c.inEnd = c'.inEnd) (hstage :
    c.StageDoes n k ((s.pipe k).taken ++ [m]) (s.pipe (k + 1)).data) :
    Inv n ((s.setPipe k (s.pipe k).shift).setPc (k + 1) c) := by
  subst hp
  have hlt : (s.pipe k).nread < (s.pipe k).data.length := (List.getElem?_eq_some_iff.mp hh).1
  refine h.move (k := k + 1) (fun j hj => by simp [hj]) (by simpa using hfork) (by simpa using habs)
    (fun j _ => ?_) (fun j hj => ?_) (fun j => ?_) (fun j => ?_) (fun hk => by cases hk)
    fun j hk => ?_
  · by_cases hj : j = k <;> simp [hj, Pipe.shift]
  · simp [show j ≠ k by omega]
  · by_cases hj : j = k
    · simpa [hj, Pipe.shift] using hlt
    · simpa [hj] using h.bound j
  · by_cases hj : j = k
    · simp [hj, Pipe.shift, hin]
    · by_cases hj1 : j = k + 1
      · simp [hj1, hout]
      · simp [hj, hj1]
  · obtain rfl : k = j := by omega
    simpa [taken_shift hh] using hstage

theorem push (h : Inv n s) (hp : s.pc k = c') (hfork : c.forked = c'.forked)
    (habs : c = .absent ↔ c' = .absent) (hout : c.outEnd = c'.outEnd) (hin : c.inEnd = c'.inEnd)
    (hmain : k = 0 → c.MainDoes n ((s.pipe 0).data ++ [m]))
    (hstage : ∀ j, k = j + 1 → c.StageDoes n j (s.pipe j).taken ((s.pipe (j + 1)).data ++ [m])) :
    Inv n ((s.setPipe k ((s.pipe k).push m)).setPc k c) := by
  subst hp
  refine h.move (k := k) (fun j hj => by simp [hj]) (by simpa using hfork) (by simpa using habs)
    (fun j hj => ?_) (fun j _ => ?_) (fun j => ?_) (fun j => ?_) (fun hk => ?_) fun j hk => ?_
  · simp [hj]
  · obtain rfl | hj := eq_or_ne j k
    · simpa using h.taken_push j m
    · simp [hj]
  · by_cases hj : j = k
    · have := h.bound k
      simp [hj, Pipe.push]
      omega
    · simpa [hj] using h.bound j
  · by_cases hj : j = k
    · simp [hj, Pipe.push, hout]
    · by_cases hj1 : j + 1 = k
      · simp [hj1, hj, hin]
      · simp [hj, hj1]
  · subst hk
    simpa [Pipe.push] using hmain rfl
  · subst hk
    simpa [Pipe.push] using hstage j rfl

theorem closeChild (h : Inv n s) (hp : s.pc (k + 1) = .closeChild) :
    Inv n ((s.setPipe k (s.pipe k).close).setPc (k + 1) .first) := by
  have hs := h.stage k
  have hw := h.writers k
  rw [hp] at hs hw
  refine h.move (k := k + 1) (fun j hj => by simp [hj]) (by simp [hp, PC.forked]) (by simp [hp])
    (fun j _ => ?_) (fun j _ => ?_) (fun j => ?_) (fun j => ?_) (fun hk => by cases hk)
    fun j hk => ?_
  · by_cases hj : j = k <;> simp [hj]
  · by_cases hj : j = k <;> simp [hj, Pipe.taken]
  · by_cases hj : j = k
    · simpa [hj] using h.bound k
    · simpa [hj] using h.bound j
  · by_cases hj : j = k
    · simp only [PC.inEnd] at hw
      simp [hj, hp, PC.inEnd]
      omega
    · by_cases hj1 : j = k + 1
      · simp [hj1, hp, PC.outEnd]
      · simp [hj, hj1]
  · obtain rfl : k = j := by omega
    simpa [Pipe.taken] using hs

theorem opened (h : Inv n s) (hp : s.pc k = c') (hfork : c'.forked = false) (hc : c.forked = false)
    (ha : c ≠ .absent) (ha' : c' ≠ .absent) (hout : c'.outEnd = 0 ∧ c.outEnd = 1)
    (hin : c.inEnd = c'.inEnd) (hempty : (s.pipe k).data = []) (hmain : k = 0 → c.MainDoes n [])
    (hstage : ∀ j, k = j + 1 → c.StageDoes n j (s.pipe j).taken []) : Inv n
    ((s.setPipe k .opened).setPc k c) := by
  subst hp
  have habsent : s.pc (k + 1) = .absent := by grind
  have hw := h.writers k
  rw [habsent, hout.1] at hw
  refine h.move (k := k) (fun j hj => by simp [hj]) (by simp [hfork, hc]) (by simp [ha, ha'])
    (fun j hj => by simp [hj]) (fun j _ => ?_) (fun j => ?_) (fun j => ?_) (fun hk => ?_)
    fun j hk => ?_
  · obtain rfl | hj := eq_or_ne j k
    · simp [Pipe.opened, Pipe.taken, hempty]
    · simp [hj]
  · by_cases hj : j = k
    · simp [hj, Pipe.opened]
    · simpa [hj] using h.bound j
  · by_cases hj : j = k
    · simp only [PC.inEnd] at hw
      simp [hj, Pipe.opened, hout, hw]
    · by_cases hj1 : j + 1 = k
      · simp [hj1, hj, hin]
      · simp [hj, hj1]
  · subst hk
    simpa [Pipe.opened] using hmain rfl
  · subst hk
    simpa [Pipe.opened] using hstage j rfl

theorem closeOut (h : Inv n s) (hp : s.pc k = .closeOut) :
    Inv n ((s.setPipe k (s.pipe k).close).setPc k .wait) := by
  have hw := h.writers k
  rw [hp] at hw
  refine h.move (k := k) (fun j hj => by simp [hj]) (by simp [hp, PC.forked]) (by simp [hp])
    (fun j hj => by simp [hj]) (fun j _ => ?_) (fun j => ?_) (fun j => ?_) (fun hk => ?_)
    fun j hk => ?_
  · by_cases hj : j = k <;> simp [hj, Pipe.taken]
  · by_cases hj : j = k
    · simpa [hj] using h.bound k
    · simpa [hj] using h.bound j
  · by_cases hj : j = k
    · simp only [PC.outEnd] at hw
      simp [hj, hp, PC.outEnd]
      omega
    · by_cases hj1 : j + 1 = k
      · simp [hj1, hj, hp, PC.inEnd]
      · simp [hj, hj1]
  · subst hk
    have hm := h.main
    rw [hp] at hm
    simpa [PC.MainDoes] using hm
  · subst hk
    have hs := h.stage j
    rw [hp] at hs
    simpa using hs

theorem fork (h : Inv n s) (hp : s.pc k = c') (hfork : c'.forked = false) (hc : c.forked = true)
    (ha : c' ≠ .absent) (hout : c'.outEnd = 1 ∧ c.outEnd = 1) (hin : c.inEnd = c'.inEnd)
    (hmain : k = 0 → c.MainDoes n (s.pipe 0).data)
    (hstage : ∀ j, k = j + 1 → c.StageDoes n j (s.pipe j).taken (s.pipe (j + 1)).data) : Inv n
    (((s.setPipe k (s.pipe k).dup).setPc k c).setPc (k + 1) .closeChild) := by
  subst hp
  have habsent : s.pc (k + 1) = .absent := by grind
  have hnone : s.pc (k + 1 + 1) = .absent := by
    by_contra hn
    have := (h.child (k + 1)).mp hn
    rw [habsent] at this
    cases this
  have hw := h.writers k
  have hca : c ≠ .absent := by
    rintro rfl
    cases hc
  rw [habsent, hout.1] at hw
  have hpipe j : ((s.setPipe k (s.pipe k).dup).pipe j).data = (s.pipe j).data ∧
      ((s.setPipe k (s.pipe k).dup).pipe j).nread = (s.pipe j).nread ∧
      ((s.setPipe k (s.pipe k).dup).pipe j).taken = (s.pipe j).taken := by
    by_cases hj : j = k <;> simp [hj, Pipe.dup, Pipe.taken]
  refine ⟨fun j => ?_, fun j => ?_, fun j => ?_, ?_, fun j => ?_⟩
  · simp only [State.setPc_pipe, hpipe]
    exact h.bound j
  · by_cases hj : j = k
    · simp only [PC.inEnd] at hw
      simp [hj, Pipe.dup, hout, hw, PC.inEnd]
    have hwj := h.writers j
    by_cases hj1 : j = k + 1
    · subst hj1
      rw [habsent, hnone] at hwj
      simp [hwj, hnone, show k + 1 + 1 ≠ k by omega, PC.outEnd, PC.inEnd]
    · by_cases hj2 : j + 1 = k
      · simp [hj, hj1, hj2, hin, hwj]
      · simp [hj, hj1, hj2, hwj]
  · by_cases hj : j = k
    · simp [hj, hc]
    have hcj := h.child j
    by_cases hj1 : j = k + 1
    · subst hj1
      simp [hnone, show k + 1 + 1 ≠ k by omega, PC.forked]
    · by_cases hj2 : j + 1 = k
      · subst hj2
        simpa [hj1, hca, ha] using hcj
      · simpa [hj, hj1, hj2] using hcj
  · simp only [State.setPc_pipe, hpipe]
    obtain rfl | hk := eq_or_ne k 0
    · simpa using hmain rfl
    · simpa [Ne.symm hk] using h.main
  · simp only [State.setPc_pipe, hpipe]
    have hs := h.stage j
    obtain rfl | hj1 := eq_or_ne j k
    · rw [habsent] at hs
      simpa using hs
    · by_cases hj2 : k = j + 1
      · subst hj2
        simpa using hstage j rfl
      · simpa [hj1, Ne.symm hj2] using hs

theorem step_main (h : Inv n s) (ht : s.step cap n 0 = some t) : Inv n t := by
  have hm := h.main
  unfold State.step at ht
  cases hp : s.pc 0 <;> rw [hp] at hm ht <;> simp only [PC.MainDoes] at hm <;> dsimp only at ht
  case mainPipe =>
    cases ht
    exact h.opened hp rfl rfl (by simp) (by simp) ⟨rfl, rfl⟩ rfl hm (fun _ => rfl)
      fun j hj => by cases hj
  case mainFork =>
    cases ht
    exact h.fork hp rfl rfl (by simp) ⟨rfl, rfl⟩ rfl (fun _ => ⟨le_rfl, Nat.zero_le _, hm⟩)
      fun j hj => by cases hj
  case feed i =>
    obtain ⟨h2, hle, hd⟩ := hm
    split at ht
    next hi =>
      split at ht
      next hroom =>
        cases ht
        refine h.push hp rfl (by simp) rfl rfl
          (fun _ => ⟨by omega, by omega, ?_⟩) fun j hj => by cases hj
        rw [hd, show i + 1 - 2 = i - 2 + 1 by omega, List.range'_1_concat]
        congr 2
        omega
      next hroom => cases ht
    next hi =>
      cases ht
      refine h.quiet hp rfl rfl rfl (by simp) rfl rfl (fun _ => ?_) fun j hj => by cases hj
      rw [PC.MainDoes, hd, stream, show i - 2 = n - 1 by omega]
  case closeOut =>
    cases ht
    exact h.closeOut hp
  case wait =>
    split at ht
    next hover =>
      cases ht
      exact h.quiet hp rfl rfl rfl (by simp) rfl rfl (fun _ => hm) fun j hj => by cases hj
    next hover => cases ht
  case exited => cases ht

theorem step_stage (h : Inv n s) (ht : s.step cap n (k + 1) = some t) : Inv n t := by
  have hs := h.stage k
  unfold State.step at ht
  rw [Nat.add_sub_cancel] at ht
  cases hp : s.pc (k + 1) <;> rw [hp] at hs ht <;> simp only [PC.StageDoes] at hs <;>
    try dsimp only at ht
  case absent | exited | gone => cases ht
  case closeChild =>
    cases ht
    exact h.closeChild hp
  case first =>
    cases hh : s.head (k + 1) with
    | some p =>
      rw [hh] at ht
      cases ht
      refine h.read hp hh rfl (by simp) rfl rfl ?_
      exact ⟨by rw [hs.1]; rfl, hs.2⟩
    | none =>
      rw [hh] at ht
      dsimp only at ht
      split at ht
      next hw =>
        cases ht
        have heof := h.taken_of_eof (by simp [hp]) hh hw
        refine h.quiet hp rfl rfl rfl (by simp) rfl rfl (fun hk => by cases hk) fun j hj => ?_
        grind
      next hw => cases ht
  case print p rest =>
    cases rest with
    | nil | cons c rest =>
      cases ht
      refine h.quiet hp rfl rfl rfl (by simp) rfl rfl (fun hk => by cases hk) fun j hj => ?_
      obtain rfl : k = j := by omega
      exact hs
  case pipe p =>
    cases ht
    refine h.opened hp rfl rfl (by simp) (by simp) ⟨rfl, rfl⟩ rfl hs.2 (fun hk => by cases hk)
      fun j hj => ?_
    obtain rfl : k = j := by omega
    exact ⟨hs.1, rfl⟩
  case fork p =>
    cases ht
    refine h.fork hp rfl rfl (by simp) ⟨rfl, rfl⟩ rfl (fun hk => by cases hk) fun j hj => ?_
    obtain rfl : k = j := by omega
    exact ⟨[], hs.1, hs.2⟩
  case loop p =>
    obtain ⟨c, hc, hd⟩ := hs
    cases hh : s.head (k + 1) with
    | some m =>
      rw [hh] at ht
      cases ht
      have htaken : (s.pipe k).taken ++ [m] = p :: (c ++ [m]) := by
        rw [hc]
        rfl
      by_cases hmod : m % p = 0
      · rw [if_neg (not_not.mpr hmod)]
        refine h.read hp hh rfl Iff.rfl rfl rfl ⟨c ++ [m], htaken, ?_⟩
        rw [hd, sift, sift, filter_append]
        simp [Nat.dvd_of_mod_eq_zero hmod]
      rw [if_pos hmod]
      refine h.read hp hh rfl (by simp) rfl rfl ⟨c, htaken, ?_⟩
      have hnd : ¬ p ∣ m := fun hdvd => hmod (Nat.mod_eq_zero_of_dvd hdvd)
      rw [hd, sift, sift, filter_append]
      simp [hnd]
    | none =>
      rw [hh] at ht
      dsimp only at ht
      split at ht
      next hw =>
        cases ht
        have heof := h.taken_of_eof (by simp [hp]) hh hw
        refine h.quiet hp rfl rfl rfl (by simp) rfl rfl (fun hk => by cases hk) fun j hj => ?_
        obtain rfl : k = j := by omega
        rw [PC.StageDoes, hd, ← hc, heof]
        rfl
      next hw => cases ht
  case write p m =>
    obtain ⟨c, hc, hd⟩ := hs
    split at ht
    next hroom =>
      cases ht
      refine h.push hp rfl (by simp) rfl rfl (fun hk => by cases hk) fun j hj => ?_
      grind
    next hroom => cases ht
  case closeOut =>
    cases ht
    exact h.closeOut hp
  case wait =>
    split at ht
    next hover =>
      cases ht
      refine h.quiet hp rfl rfl rfl (by simp) rfl rfl (fun hk => by cases hk) fun j hj => ?_
      obtain rfl : k = j := by omega
      exact hs
    next hover => cases ht

theorem step (h : Inv n s) (ht : s.step cap n k = some t) : Inv n t := by
  cases k with
  | zero => exact h.step_main ht
  | succ k => exact h.step_stage ht

end Inv

/-- What is to be printed by the processes from `k + 1` on. -/
def text (n k : ℕ) : List Char := (sieve (stream n k)).flatMap line

namespace PC

def printed : PC → Bool
  | .pipe _ | .fork _ | .loop _ | .write _ _ | .closeOut | .wait | .exited => true
  | _ => false

/-- What is still to come when process `k + 1` is the first that has not printed its line. -/
def pending (n k : ℕ) : PC → List Char
  | .print _ rest => rest ++ text n (k + 1)
  | _ => text n k

end PC

attribute [local simp] PC.printed

/-- Process `m + 1` is the first that has not printed its line. -/
@[grind cases] structure Spoken (n : ℕ) (s : State) (m : ℕ) : Prop where
  before : ∀ j, j < m → (s.pc (j + 1)).printed = true
  here : (s.pc (m + 1)).printed = false
  out : s.out ++ (s.pc (m + 1)).pending n m = text n 0

theorem spoken_init : Spoken n State.init 0 where
  before _ hj := absurd hj (Nat.not_lt_zero _)
  here := rfl
  out := rfl

theorem stream_cons (h : Inv n s) (hh : s.head (k + 1) = some p)
    (htaken : (s.pipe k).taken = []) : ∃ l, stream n k = p :: l := by
  have hp : ((s.pipe k).taken ++ [p]) <+: stream n k := by
    refine (List.IsPrefix.trans ?_ (h.data_prefix k))
    rw [← Inv.taken_shift hh]
    exact take_prefix _ _
  rw [htaken] at hp
  obtain ⟨l, hl⟩ := hp
  exact ⟨l, hl.symm⟩

theorem text_cons {l : List ℕ} (h : stream n k = p :: l) : text n k = line p ++ text n (k + 1) := by
  rw [text, h, sieve_cons, flatMap_cons, text, stream, h]

namespace Spoken

/-- Behind the first process that has not printed there is none. -/
theorem absent (hs : Spoken n s m) (h : Inv n s) (j : ℕ) (hj : m + 1 < j) : s.pc j = .absent := by
  induction j with
  | zero => omega
  | succ j ih =>
    by_contra hn
    have hf := (h.child j).mp hn
    by_cases hjm : j = m + 1
    · have hh := hs.here
      rw [← hjm] at hh
      revert hf hh
      generalize hc : s.pc j = c
      have hstage := h.stage m
      rw [← hjm, hc] at hstage
      cases c <;> simp [PC.forked] at hstage ⊢
    · rw [ih (by omega)] at hf
      cases hf

/-- A step that prints nothing, of a process that stays on its side. -/
theorem move (hs : Spoken n s m) (hout : t.out = s.out)
    (hpc : ∀ j ≠ k, (t.pc (j + 1)).printed = (s.pc (j + 1)).printed ∧
      (t.pc (j + 1)).pending n m = (s.pc (j + 1)).pending n m)
    (hprinted : (t.pc (k + 1)).printed = (s.pc (k + 1)).printed)
    (hpending : k = m → (t.pc (k + 1)).pending n m = (s.pc (k + 1)).pending n m) :
    Spoken n t m := by
  have hp j : (t.pc (j + 1)).printed = (s.pc (j + 1)).printed := by grind
  refine ⟨fun j hj => (hp j).trans (hs.before j hj), (hp m).trans hs.here, ?_⟩
  grind

theorem step_main (hs : Spoken n s m) (h : Inv n s) (ht : s.step cap n 0 = some t) :
    Spoken n t m := by
  have hm := h.main
  have hc := h.child 0
  unfold State.step at ht
  cases hp : s.pc 0 <;> rw [hp] at hm hc ht <;> simp only [PC.MainDoes] at hm <;> dsimp only at ht
  case mainFork =>
    cases ht
    have habs : s.pc (0 + 1) = .absent := by
      by_contra hn
      exact absurd (hc.mp hn) (by simp [PC.forked])
    refine hs.move (k := 0) rfl (fun j hj => by simp [hj]) ?_ fun _ => ?_
    · simp [habs]
    · simp [habs, PC.pending]
  case exited => cases ht
  case feed i =>
    split at ht
    · split at ht
      · cases ht
        exact hs.move (k := 0) rfl (fun j _ => by simp) (by simp) fun _ => by simp
      · cases ht
    · cases ht
      exact hs.move (k := 0) rfl (fun j _ => by simp) (by simp) fun _ => by simp
  case wait =>
    split at ht
    · cases ht
      exact hs.move (k := 0) rfl (fun j _ => by simp) (by simp) fun _ => by simp
    · cases ht
  all_goals
    cases ht
    exact hs.move (k := 0) rfl (fun j _ => by simp) (by simp) fun _ => by simp

/-- Only the first process that has not printed can be at its line or before it. -/
theorem eq_of_not_printed (hs : Spoken n s m) (h : Inv n s) (ha : s.pc (k + 1) ≠ .absent)
    (hp : (s.pc (k + 1)).printed = false) : k = m := by
  by_contra hne
  rcases Nat.lt_or_gt_of_ne hne with hlt | hgt
  · have hb := hs.before k hlt
    rw [hp] at hb
    cases hb
  · exact ha (hs.absent h (k + 1) (by omega))

theorem step_stage (hs : Spoken n s m) (h : Inv n s)
    (ht : s.step cap n (k + 1) = some t) : ∃ m', Spoken n t m' := by
  have hd := h.stage k
  unfold State.step at ht
  rw [Nat.add_sub_cancel] at ht
  have hquiet : ∀ (x : State) (c : PC), x.pc = s.pc → x.out = s.out →
      c.printed = (s.pc (k + 1)).printed →
      (k = m → c.pending n m = (s.pc (k + 1)).pending n m) → Spoken n (x.setPc (k + 1) c) m := by
    intro x c hx ho hprinted hpending
    refine hs.move (k := k) ho (fun j hj => ?_) (by simpa using hprinted) fun hk => ?_
    · simp [hj, hx]
    · simpa using hpending hk
  cases hp : s.pc (k + 1) <;> rw [hp] at hd ht hquiet <;> simp only [PC.StageDoes] at hd <;>
    try dsimp only at ht
  case absent | exited | gone => cases ht
  case first =>
    cases hh : s.head (k + 1) with
    | some p =>
      rw [hh] at ht
      cases ht
      obtain rfl := hs.eq_of_not_printed (k := k) h (by simp [hp]) (by simp [hp])
      obtain ⟨l, hl⟩ := stream_cons h hh hd.1
      refine ⟨k, hquiet _ _ rfl rfl rfl fun _ => ?_⟩
      exact (text_cons hl).symm
    | none =>
      rw [hh] at ht
      dsimp only at ht
      split at ht
      · cases ht
        exact ⟨m, hquiet _ _ rfl rfl rfl fun _ => rfl⟩
      · cases ht
  case print p rest =>
    obtain rfl := hs.eq_of_not_printed (k := k) h (by simp [hp]) (by simp [hp])
    have hout := hs.out
    rw [hp] at hout
    cases rest with
    | nil =>
      cases ht
      have habs := hs.absent h (k + 1 + 1) (by omega)
      refine ⟨k + 1, fun j hj => ?_, ?_, ?_⟩
      · by_cases hjk : j = k
        · simp [hjk]
        · simpa [hjk] using hs.before j (by omega)
      · simp [habs]
      · simpa [habs, PC.pending] using hout
    | cons c rest =>
      cases ht
      refine ⟨k, fun j hj => ?_, by simp, ?_⟩
      · simpa [show j ≠ k by omega] using hs.before j hj
      · simpa [PC.pending] using hout
  case fork p =>
    cases ht
    have habs : s.pc (k + 1 + 1) = .absent := by
      by_contra hn
      have hf := (h.child (k + 1)).mp hn
      rw [hp] at hf
      cases hf
    refine ⟨m, hs.move (k := k) rfl (fun j hj => ?_) ?_ fun _ => ?_⟩
    · by_cases hj1 : j = k + 1
      · subst hj1
        simp [habs, PC.pending]
      · simp [hj, hj1]
    · simp [hp]
    · simp [hp, PC.pending]
  case loop p =>
    cases hh : s.head (k + 1) with
    | some q =>
      rw [hh] at ht
      cases ht
      refine ⟨m, hquiet _ _ rfl rfl ?_ fun _ => ?_⟩
      · split <;> rfl
      · split <;> rfl
    | none =>
      rw [hh] at ht
      dsimp only at ht
      split at ht
      · cases ht
        exact ⟨m, hquiet _ _ rfl rfl rfl fun _ => rfl⟩
      · cases ht
  case write p q =>
    split at ht
    · cases ht
      exact ⟨m, hquiet _ _ rfl rfl rfl fun _ => rfl⟩
    · cases ht
  case wait =>
    split at ht
    · cases ht
      exact ⟨m, hquiet _ _ rfl rfl rfl fun _ => rfl⟩
    · cases ht
  all_goals
    cases ht
    exact ⟨m, hquiet _ _ rfl rfl rfl fun _ => rfl⟩

end Spoken

theorem run_inv {ks : List ℕ} (hr : run (State.step cap n) State.init ks = some s) :
    Inv n s ∧ ∃ m, Spoken n s m := by
  refine run_invariant (I := fun s => Inv n s ∧ ∃ m, Spoken n s m) ?_ ⟨inv_init, 0, spoken_init⟩ hr
  rintro s k t ⟨h, m, hs⟩ ht
  refine ⟨h.step ht, ?_⟩
  cases k with
  | zero => exact ⟨m, hs.step_main h ht⟩
  | succ k => exact hs.step_stage h ht

/-- When all have exited, the first process that has not printed has met the end of file at once. -/
theorem Spoken.complete (hs : Spoken n s m) (h : Inv n s) (he : s.AllExited) :
    s.out = text n 0 := by
  have hover := he (m + 1)
  have hhere := hs.here
  have hd := h.stage m
  have hout := hs.out
  cases hp : s.pc (m + 1) <;> rw [hp] at hover hhere hd hout <;>
    simp only [PC.over, PC.printed, reduceCtorEq] at hover hhere
  case absent =>
    -- Its parent has exited without a child, so it is neither `main` nor a process that has
    -- printed.
    have hnf : (s.pc m).forked = false := by
      have := h.child m
      simpa [hp] using this
    have hmo := he m
    cases m with
    | zero =>
      have hm := h.main
      cases hq : s.pc 0 <;> rw [hq] at hm hmo hnf <;>
        simp [PC.over, PC.MainDoes, PC.forked] at hm hmo hnf
    | succ m =>
      have hb := hs.before m (Nat.lt_succ_self m)
      cases hq : s.pc (m + 1) <;> rw [hq] at hb hmo hnf <;> simp [PC.over, PC.forked] at hb hmo hnf
  case gone =>
    have hp : PC.pending n m .gone = [] := by
      change text n m = []
      rw [text, hd.1]
      simp
    rwa [hp, append_nil] at hout

/-- The pipeline is a sieve: under every schedule it has printed a beginning of the lines for the
primes up to `n`, and all of them when the processes have exited. -/
theorem primes_sieve (cap n : ℕ) (ks : List ℕ)
    (hr : run (State.step cap n) State.init ks = some s) :
    s.out <+: ((List.range (n + 1)).filter fun p => p.Prime).flatMap line ∧
      (s.AllExited → s.out = ((List.range (n + 1)).filter fun p => p.Prime).flatMap line) := by
  obtain ⟨h, m, hs⟩ := run_inv hr
  rw [← sieve_range n]
  exact ⟨⟨_, hs.out⟩, fun he => hs.complete h he⟩

/-- The numbers up to 5, one process after the other: process 1 drops 4 and passes 3 and 5 on, and
process 4 meets the end of file. -/
def schedule : List ℕ :=
  List.replicate 8 0 ++ List.replicate 20 1 ++ List.replicate 17 2 ++ List.replicate 15 3 ++
    [4, 4, 3, 2, 1, 0]

theorem primes_sieve_schedule : ∃ s, run (State.step 128 5) State.init schedule = some s ∧
    s.out = line 2 ++ line 3 ++ line 5 ∧ (∀ k, k < 5 → (s.pc k).over = true) ∧
    s.out <+: ((List.range (5 + 1)).filter fun p => p.Prime).flatMap line := by
  have h : ∃ s ∈ run (State.step 128 5) State.init schedule,
      s.out = line 2 ++ line 3 ++ line 5 ∧ ∀ k, k < 5 → (s.pc k).over = true := by decide +kernel
  obtain ⟨s, hs, hout, hover⟩ := h
  exact ⟨s, hs, hout, hover, (primes_sieve 128 5 schedule hs).1⟩

end Xv6.Primes
