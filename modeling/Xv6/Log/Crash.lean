import Xv6.Log.Commit

/-! Crash atomicity of `commit`: whatever prefix of its block writes reaches the disk, and however
often recovery is itself cut short, recovery ends with all or none of the transaction. -/
namespace Xv6.Log
open Function Writes List
attribute [local simp] comp_def

def put (m : Machine) (w : ℕ × Block) : Machine :=
  ⟨update m.disk w.1 w.2, update m.cache w.1 (some w.2), m.writes ++ [w]⟩

def puts (m : Machine) (ws : List (ℕ × Block)) : Machine := ws.foldl put m

section
variable (m : Machine)
include m

@[simp] theorem puts_nil : puts m [] = m := rfl

@[simp] theorem puts_cons (w : ℕ × Block) (ws : List (ℕ × Block)) :
    puts m (w :: ws) = puts (put m w) ws := rfl

theorem puts_append (ws vs : List (ℕ × Block)) :
    puts m (ws ++ vs) = puts (puts m ws) vs := foldl_append ..

theorem bread_setData (b : ℕ) (v : Block) : bread (setData m b v) b = v := by
  simp [bread, setData]

theorem bwrite_setData (b : ℕ) (v : Block) : bwrite (setData m b v) b = put m (b, v) := by
  unfold bwrite
  rw [bread_setData]
  rfl

theorem bread_put (w : ℕ × Block) : bread (put m w) = update (bread m) w.1 w.2 := by
  funext b
  by_cases h : b = w.1
  · subst h
    simp [bread, put]
  · simp [bread, put, update_of_ne h]

variable (ws : List (ℕ × Block))
include ws

theorem bread_puts : bread (puts m ws) = applyWrites (bread m) ws := by
  induction ws generalizing m with
  | nil => rfl
  | cons w ws ih => rw [puts_cons, ih, bread_put, applyWrites_cons]

theorem disk_puts : (puts m ws).disk = applyWrites m.disk ws := by
  induction ws generalizing m with
  | nil => rfl
  | cons w ws ih => rw [puts_cons, ih, applyWrites_cons]; rfl

theorem writes_puts : (puts m ws).writes = m.writes ++ ws := by
  induction ws generalizing m with
  | nil => simp
  | cons w ws ih => rw [puts_cons, ih]; simp [put]

end

theorem crashDisk_puts (d : Disk) (c : ℕ → Option Block) (ws : List (ℕ × Block)) (k : ℕ) :
    crashDisk d (puts ⟨d, c, []⟩ ws) k = applyWrites d (ws.take k) := by
  simp [crashDisk, writes_puts]

def logRecords (g : LogArea) (f : ℕ → Block) : ℕ → Logheader → List (ℕ × Block)
  | _, [] => []
  | tail, b :: lh => (g.start + tail + 1, f b) :: logRecords g f (tail + 1) lh

def homeRecords (g : LogArea) (f : ℕ → Block) : ℕ → Logheader → List (ℕ × Block)
  | _, [] => []
  | tail, b :: lh => (b, f (g.start + tail + 1)) :: homeRecords g f (tail + 1) lh

private theorem logRecords_length (g : LogArea) (f : ℕ → Block) (tail : ℕ) (lh : Logheader) :
    (logRecords g f tail lh).length = lh.length := by
  induction lh generalizing tail with
  | nil => rfl
  | cons b lh ih => simp [logRecords, ih]

variable {g : LogArea} {lh : Logheader} {tail : ℕ} {d e f : Disk}

private theorem mem_logRecords {f : ℕ → Block} {w : ℕ × Block} (h : w ∈ logRecords g f tail lh) :
    ∃ t, ∃ ht : t < lh.length, w = (g.start + (tail + t) + 1, f (lh.get ⟨t, ht⟩)) := by
  induction lh generalizing tail with
  | nil => simp [logRecords] at h
  | cons b lh ih =>
    rcases mem_cons.mp h with rfl | h
    · exact ⟨0, by simp, rfl⟩
    · obtain ⟨t, ht, rfl⟩ := ih h
      refine ⟨t + 1, by simpa using ht, ?_⟩
      simp only [get_eq_getElem, getElem_cons_succ, Prod.mk.injEq, and_true]
      omega

theorem logRecords_congr {f f' : ℕ → Block} (tail : ℕ)
    (h : ∀ b ∈ lh, f b = f' b) : logRecords g f tail lh = logRecords g f' tail lh := by
  induction lh generalizing tail with
  | nil => rfl
  | cons b lh ih =>
    simp only [logRecords]
    rw [h b (.head _), ih _ fun c hc => h c (.tail _ hc)]

theorem homeRecords_congr {f f' : ℕ → Block}
    (h : ∀ t < lh.length, f (g.start + (tail + t) + 1) = f' (g.start + (tail + t) + 1)) :
    homeRecords g f tail lh = homeRecords g f' tail lh := by
  induction lh generalizing tail with
  | nil => rfl
  | cons b lh ih =>
    have h0 := h 0 (by simp)
    have hs t (ht : t < lh.length) : f (g.start + (tail + 1 + t) + 1) = f'
        (g.start + (tail + 1 + t) + 1) := by
      rw [Nat.add_right_comm tail 1 t]
      exact h (t + 1) (by simpa using ht)
    simp only [Nat.add_zero] at h0
    simp only [homeRecords]
    rw [h0, ih hs]

/-- When the log blocks hold the values of `f`, installing stores `f` at the home blocks. -/
theorem homeRecords_eq_map {e f : ℕ → Block}
    (h : ∀ t, ∀ ht : t < lh.length, e (g.start + (tail + t) + 1) = f (lh.get ⟨t, ht⟩)) :
    homeRecords g e tail lh = lh.map fun b => (b, f b) := by
  induction lh generalizing tail with
  | nil => rfl
  | cons b lh ih =>
    have h0 := h 0 (by simp)
    have hs t (ht : t < lh.length) : e (g.start + (tail + 1 + t) + 1) = f (lh.get ⟨t, ht⟩) := by
      rw [Nat.add_right_comm tail 1 t]
      exact h (t + 1) (by simpa using ht)
    simp only [Nat.add_zero, get_eq_getElem, getElem_cons_zero] at h0
    simp only [homeRecords, map_cons]
    rw [h0, ih hs]

section
variable (hout : ∀ b ∈ lh, ¬ g.Contains b) (hlen : tail + lh.length < g.size) (m : Machine)
include hout hlen m

/-- Copying to log blocks never disturbs the home blocks still to be copied. -/
theorem writeLogFrom_eq : writeLogFrom g tail lh m = puts m (logRecords g (bread m) tail lh) := by
  induction lh generalizing tail m with
  | nil => rfl
  | cons b lh ih =>
    simp only [length_cons] at hlen
    have hsame : ∀ c ∈ lh, bread (put m (g.start + tail + 1, bread m b)) c = bread m c := by
      intro c hc
      have hc := hout c (.tail _ hc)
      unfold LogArea.Contains at hc
      rw [bread_put, update_of_ne]
      simp only [ne_eq]
      omega
    simp only [writeLogFrom, logRecords, puts_cons]
    rw [bwrite_setData, ih (fun c hc => hout c (.tail _ hc)) (by omega), logRecords_congr _ hsame]

/-- Installing home blocks never disturbs the log blocks still to be read. -/
theorem installFrom_eq : installFrom g tail lh m = puts m (homeRecords g (bread m) tail lh) := by
  induction lh generalizing tail m with
  | nil => rfl
  | cons b lh ih =>
    simp only [length_cons] at hlen
    have hb := hout b (.head _)
    unfold LogArea.Contains at hb
    have hsame t (ht : t < lh.length) : bread (put m (b, bread m (g.start + tail + 1)))
        (g.start + (tail + 1 + t) + 1) = bread m (g.start + (tail + 1 + t) + 1) := by
      rw [bread_put, update_of_ne]
      simp only [ne_eq]
      omega
    simp only [installFrom, homeRecords, puts_cons]
    rw [bwrite_setData, ih (fun c hc => hout c (.tail _ hc)) (by omega), homeRecords_congr hsame]

end

theorem writeHead_eq (g : LogArea) (lh : Logheader) (m : Machine) :
    writeHead g lh m = put m (g.start, headBlock lh (bread m g.start)) :=
  bwrite_setData ..

private theorem word_fillHead {i j : ℕ} {h : Block} (hj : j < nindirect)
    (hi : i + lh.length < nindirect) (hlh : ∀ b ∈ lh, b < 2 ^ 32) :
    (fillHead lh i h).word j =
      if hx : i < j ∧ j - i - 1 < lh.length then lh.get ⟨j - i - 1, hx.2⟩ else h.word j := by
  induction lh generalizing i h with
  | nil => simp [fillHead]
  | cons b lh ih =>
    simp only [length_cons] at hi
    have hb := hlh b (.head _)
    rw [fillHead, ih (by omega) fun c hc => hlh c (.tail _ hc)]
    by_cases h1 : j = i + 1
    · subst h1
      rw [dif_neg (by omega), dif_pos ⟨by omega, by simp⟩, Block.word_setWord_self hj hb]
      simp
    by_cases h2 : i + 1 < j ∧ j - (i + 1) - 1 < lh.length
    · rw [dif_pos h2, dif_pos ⟨by omega, by simp only [length_cons]; omega⟩]
      have hidx : j - i - 1 = (j - (i + 1) - 1) + 1 := by omega
      simp only [get_eq_getElem, hidx, getElem_cons_succ]
    · rw [dif_neg h2, dif_neg (by simp only [length_cons]; omega), Block.word_setWord_ne hj h1]

section
variable (hlen : lh.length ≤ logsize) (hlh : ∀ b ∈ lh, b < 2 ^ 32) (h : Block)
include hlen hlh h

theorem headCount_headBlock : headCount (headBlock lh h) = lh.length := by
  have hc : logsize = 30 ∧ nindirect = 256 := ⟨rfl, rfl⟩
  have hw : (headBlock lh h).word 0 = lh.length := by
    unfold headBlock
    rw [word_fillHead (by decide) (by omega) hlh, dif_neg (by omega),
      Block.word_setWord_self (by decide) (by omega)]
  unfold headCount
  rw [hw, if_pos (by omega)]

theorem headBlocks_headBlock : headBlocks (headBlock lh h) = lh := by
  have hc : logsize = 30 ∧ nindirect = 256 := ⟨rfl, rfl⟩
  unfold headBlocks
  rw [headCount_headBlock hlen hlh]
  apply ext_getElem
  · simp
  · intro t h1 h2
    simp only [getElem_map, getElem_range]
    unfold headBlock
    rw [word_fillHead (by omega) (by omega) hlh, dif_pos ⟨by omega, by omega⟩]
    simp

end

private theorem headCount_clear (h : Block) : headCount (headBlock [] h) = 0 :=
  headCount_headBlock (by simp) (by simp) h

theorem headBlocks_of_headCount {h : Block} (hz : headCount h = 0) : headBlocks h = [] := by
  simp [headBlocks, hz]

/-- A set of blocks `log_write` can collect: distinct, few enough, and outside the log. -/
structure Loggable (g : LogArea) (lh : Logheader) : Prop where
  nodup : lh.Nodup
  length_le : lh.length ≤ min logsize (g.size - 1)
  outside : ∀ b ∈ lh, ¬ g.Contains b
  uint : ∀ b ∈ lh, b < 2 ^ 32

/-- Disks a running kernel can hold between two commits: `initlog` has recovered from some disk
with a readable header, and any number of commits have completed since. -/
inductive Running (g : LogArea) : Disk → Prop where
  | initlog (d : Disk) (h : headCount (d g.start) ≤ logsize) :
      Running g (recoverFromLog g (boot d)).disk
  | commit {d : Disk} (cache : ℕ → Option Block) {lh : Logheader} (hr : Running g d)
      (hl : Loggable g lh) : Running g (commit g lh ⟨d, cache, []⟩).disk

theorem headCount_writeHead_nil (g : LogArea) (m : Machine) :
    headCount ((writeHead g [] m).disk g.start) = 0 := by
  rw [writeHead_eq]
  simp only [put, update_self]
  exact headCount_clear _

theorem Running.headCount_eq (hr : Running g d) : headCount (d g.start) = 0 := by
  induction hr with
  | initlog d h => exact headCount_writeHead_nil g _
  | @commit d cache lh hr hl ih =>
    unfold Log.commit
    split
    · exact headCount_writeHead_nil g _
    · exact ih

/-- The writes of `commit` for a non-empty transaction, in program order. -/
def commitWrites (g : LogArea) (lh : Logheader) (m : Machine) : List (ℕ × Block) :=
  let h := headBlock lh (bread m g.start)
  logRecords g (bread m) 0 lh ++ (g.start, h) :: (lh.map (fun b => (b, bread m b)) ++
    [(g.start, headBlock [] h)])

namespace Loggable
section
variable (hl : Loggable g lh)
include hl

theorem length_lt : lh.length < g.size := by
  have h := hl.length_le
  have hp := g.pos
  omega

theorem length_logsize : lh.length ≤ logsize :=
  hl.length_le.trans (min_le_left _ _)

theorem logRecord_contains {f : ℕ → Block} {w : ℕ × Block}
    (hw : w ∈ logRecords g f 0 lh) : g.Contains w.1 ∧ w.1 ≠ g.start := by
  obtain ⟨t, ht, rfl⟩ := mem_logRecords hw
  have h := hl.length_lt
  unfold LogArea.Contains
  simp only [ne_eq]
  omega

theorem start_notMem : g.start ∉ lh := by
  intro h
  have hp := g.pos
  exact hl.outside _ h ⟨le_rfl, by omega⟩

end

theorem logRecords_read (f : ℕ → Block) (d : Disk) {t : ℕ} (ht : t < lh.length) :
    applyWrites d (logRecords g f 0 lh) (g.start + t + 1) = f (lh.get ⟨t, ht⟩) := by
  have hmem : ∀ (lh : Logheader) (tail t : ℕ) (ht : t < lh.length),
      (g.start + (tail + t) + 1, f (lh.get ⟨t, ht⟩)) ∈ logRecords g f tail lh := by
    intro lh
    induction lh with
    | nil => intro tail t ht; simp at ht
    | cons b lh ih =>
      intro tail t ht
      cases t with
      | zero => simp [logRecords]
      | succ t =>
        have h := ih (tail + 1) t (by simpa using ht)
        rw [show tail + 1 + t = tail + (t + 1) by omega] at h
        exact mem_cons_of_mem _ h
  have hm := hmem lh 0 t ht
  rw [Nat.zero_add] at hm
  apply applyWrites_of_mem (mem_map.mpr ⟨_, hm, rfl⟩)
  intro w hw he
  obtain ⟨s, hs, rfl⟩ := mem_logRecords hw
  have hst : s = t := by simp only at he; omega
  subst hst
  rfl

theorem commit_eq (hl : Loggable g lh) (hne : 0 < lh.length) (m : Machine) :
    commit g lh m = puts m (commitWrites g lh m) := by
  let recs := logRecords g (bread m) 0 lh
  let h := headBlock lh (bread m g.start)
  have hstart : bread (puts m recs) g.start = bread m g.start := by
    rw [bread_puts, applyWrites_of_notMem]
    intro hm
    obtain ⟨w, hw, he⟩ := mem_map.mp hm
    exact (hl.logRecord_contains hw).2 he
  have hhome : homeRecords g (bread (put (puts m recs) (g.start, h))) 0 lh =
      lh.map fun b => (b, bread m b) := by
    apply homeRecords_eq_map
    intro t ht
    rw [Nat.zero_add, bread_put, update_of_ne (by simp only [ne_eq]; omega), bread_puts]
    exact logRecords_read _ _ ht
  have hclear : bread (puts (put (puts m recs) (g.start, h)) (lh.map fun b => (b, bread m b)))
      g.start = h := by
    rw [bread_puts, applyWrites_of_notMem]
    · rw [bread_put, update_self]
    · simpa using hl.start_notMem
  unfold commit
  rw [if_pos hne]
  unfold writeLog installTrans
  rw [writeLogFrom_eq hl.outside (by simpa using hl.length_lt), writeHead_eq g lh, hstart,
    installFrom_eq hl.outside (by simpa using hl.length_lt), hhome, writeHead_eq, hclear]
  simp only [commitWrites, puts_append, puts_cons, puts_nil]
  rfl

end Loggable

structure Settled (g : LogArea) (e d : Disk) : Prop where
  head : headCount (d g.start) = 0
  home : ∀ b, ¬ g.Contains b → d b = e b

/-- The header names `lh`, the log blocks hold the values of `f`, and blocks outside the log
that are not named still hold `e`; the named ones may or may not be installed yet. -/
structure Committed (g : LogArea) (lh : Logheader) (e f d : Disk) : Prop where
  head : headBlocks (d g.start) = lh
  data : ∀ t, ∀ ht : t < lh.length, d (g.start + t + 1) = f (lh.get ⟨t, ht⟩)
  home : ∀ b, ¬ g.Contains b → b ∉ lh → d b = e b

def installed (lh : Logheader) (e f : Disk) : Disk := fun b => if b ∈ lh then f b else e b

theorem settled_clear (h : ∀ b, ¬ g.Contains b → d b = e b)
    (v : Block) : Settled g e (update d g.start (headBlock [] v)) where
  head := by
    rw [update_self]
    exact headCount_clear v
  home b hb := by
    have hne : b ≠ g.start := by
      rintro rfl
      have hp := g.pos
      exact hb ⟨le_rfl, by omega⟩
    rw [update_of_ne hne, h b hb]

theorem Settled.recover_writes (h : Settled g e d) :
    recoverFromLog g (boot d) = puts (boot d) [(g.start, headBlock [] (d g.start))] := by
  have hr : readHead g (boot d) = [] := headBlocks_of_headCount h.head
  unfold recoverFromLog
  rw [hr, writeHead_eq]
  rfl

theorem Settled.recover_take (h : Settled g e d) (k : ℕ) :
    Settled g e (crashDisk d (recoverFromLog g (boot d)) k) := by
  rw [h.recover_writes, boot, crashDisk_puts]
  apply applyWrites_take_induction _ k d h
  intro d' hd' w hw
  rw [mem_singleton.mp hw]
  exact settled_clear hd'.home _

theorem Settled.recover (h : Settled g e d) : Settled g e (recoverFromLog g (boot d)).disk := by
  rw [h.recover_writes, disk_puts]
  exact settled_clear h.home _

theorem Committed.install (hl : Loggable g lh)
    (h : Committed g lh e f d) {b : ℕ} (hb : b ∈ lh) (v : Block) :
    Committed g lh e f (update d b v) where
  head := by
    rw [update_of_ne, h.head]
    rintro rfl
    exact hl.start_notMem hb
  data t ht := by
    rw [update_of_ne, h.data t ht]
    rintro rfl
    have hlen := hl.length_lt
    exact hl.outside _ hb ⟨by omega, by omega⟩
  home c hc hcl := by
    rw [update_of_ne, h.home c hc hcl]
    rintro rfl
    exact hcl hb

theorem Committed.recover_writes (hl : Loggable g lh) (h : Committed g lh e f d) :
    recoverFromLog g (boot d) = puts (boot d)
      (lh.map (fun b => (b, f b)) ++ [(g.start, headBlock [] (d g.start))]) := by
  have hr : readHead g (boot d) = lh := h.head
  have hhome : homeRecords g (bread (boot d)) 0 lh = lh.map fun b => (b, f b) := by
    apply homeRecords_eq_map
    intro t ht
    rw [Nat.zero_add]
    exact h.data t ht
  have hstart : bread (puts (boot d) (lh.map fun b => (b, f b))) g.start = d g.start := by
    rw [bread_puts, applyWrites_of_notMem]
    · rfl
    · simpa using hl.start_notMem
  unfold recoverFromLog installTrans
  rw [hr, installFrom_eq hl.outside (by simpa using hl.length_lt), hhome, writeHead_eq, hstart,
    puts_append]
  rfl

theorem Committed.home_writes (h : Committed g lh e f d) {b : ℕ} (hb : ¬ g.Contains b) :
    applyWrites d (lh.map fun b => (b, f b)) b = installed lh e f b := by
  unfold installed
  split
  next hm =>
    apply applyWrites_of_mem
    · simpa using hm
    · intro w hw he
      obtain ⟨c, _, rfl⟩ := mem_map.mp hw
      rw [← he]
  next hm =>
    rw [applyWrites_of_notMem (by simpa using hm), h.home b hb hm]

section
variable (hl : Loggable g lh) (h : Committed g lh e f d)
include hl h

/-- The home writes followed by the clearing header write, cut anywhere. -/
theorem Committed.tail_take (v : Block) (k : ℕ) :
    let d' := applyWrites d ((lh.map (fun b => (b, f b)) ++ [(g.start, headBlock [] v)]).take k)
    Committed g lh e f d' ∨ Settled g (installed lh e f) d' := by
  have hstep : ∀ d', Committed g lh e f d' → ∀ w ∈ lh.map (fun b => (b, f b)),
      Committed g lh e f (update d' w.1 w.2) := by
    intro d' hd' w hw
    obtain ⟨b, hb, rfl⟩ := mem_map.mp hw
    exact hd'.install hl hb _
  intro d'
  have hd' : d' = _ := applyWrites_take_append d _ _ k
  rw [hd']
  split
  next => exact Or.inl (applyWrites_take_induction hstep k d h)
  next hk =>
    right
    rw [take_of_length_le (by simp only [length_singleton]; omega)]
    exact settled_clear (fun b hb => h.home_writes hb) v

theorem Committed.recover_take (k : ℕ) :
    Committed g lh e f (crashDisk d (recoverFromLog g (boot d)) k) ∨
      Settled g (installed lh e f) (crashDisk d (recoverFromLog g (boot d)) k) := by
  rw [h.recover_writes hl, boot, crashDisk_puts]
  exact h.tail_take hl _ k

theorem Committed.recover : Settled g (installed lh e f) (recoverFromLog g (boot d)).disk := by
  rw [h.recover_writes hl, disk_puts, applyWrites_concat]
  exact settled_clear (fun b hb => h.home_writes hb) _

end

theorem Settled.recoverAfter (h : Settled g e d) (ks : List ℕ) :
    Settled g e (recoverAfter g ks d).disk := by
  induction ks generalizing d with
  | nil => exact h.recover
  | cons k ks ih => exact ih (h.recover_take k)

section
variable (hl : Loggable g lh)
include hl

theorem Committed.recoverAfter (h : Committed g lh e f d) (ks : List ℕ) :
    Settled g (installed lh e f) (recoverAfter g ks d).disk := by
  induction ks generalizing d with
  | nil => exact h.recover hl
  | cons k ks ih =>
    rcases h.recover_take hl k with hc | hs
    · exact ih hc
    · exact hs.recoverAfter ks

theorem commit_take_before (hz : headCount (d g.start) = 0) (f : ℕ → Block) (k : ℕ) :
    Settled g d (applyWrites d ((logRecords g f 0 lh).take k)) := by
  have hstep : ∀ d', Settled g d d' → ∀ w ∈ logRecords g f 0 lh,
      Settled g d (update d' w.1 w.2) := by
    intro d' hd' w hw
    obtain ⟨hc, hne⟩ := hl.logRecord_contains hw
    refine ⟨?_, fun b hb => ?_⟩
    · rw [update_of_ne hne.symm]
      exact hd'.head
    · rw [update_of_ne, hd'.home b hb]
      rintro rfl
      exact hb hc
  exact applyWrites_take_induction hstep k d ⟨hz, fun _ _ => rfl⟩

theorem commit_head_committed (f : ℕ → Block) (v : Block) :
    Committed g lh d f (update (applyWrites d (logRecords g f 0 lh)) g.start (headBlock lh v)) where
  head := by
    rw [update_self]
    exact headBlocks_headBlock hl.length_logsize hl.uint v
  data t ht := by
    rw [update_of_ne (by omega)]
    exact Loggable.logRecords_read f d ht
  home b hb _ := by
    rw [update_of_ne, applyWrites_of_notMem]
    · intro hm
      obtain ⟨w, hw, rfl⟩ := mem_map.mp hm
      exact hb (hl.logRecord_contains hw).1
    · rintro rfl
      have hp := g.pos
      exact hb ⟨le_rfl, by omega⟩

theorem start_mem_take_commitWrites (m : Machine) (k : ℕ) :
    g.start ∈ ((commitWrites g lh m).take k).map Prod.fst ↔ lh.length < k := by
  have hlen := logRecords_length g (bread m) 0 lh
  constructor
  · intro h
    by_contra hk
    rw [commitWrites, take_append_of_le_length (by omega)] at h
    obtain ⟨w, hw, he⟩ := mem_map.mp h
    exact (hl.logRecord_contains (mem_of_mem_take hw)).2 he
  · intro hk
    obtain ⟨j, hj⟩ : ∃ j, k - (logRecords g (bread m) 0 lh).length = j + 1 :=
      ⟨k - lh.length - 1, by omega⟩
    rw [commitWrites, take_append, hj, take_succ_cons]
    simp

end

/-- The disk a crash leaves, by whether the first header write reached it. -/
theorem crashDisk_commit (hz : headCount (d g.start) = 0)
    (hl : Loggable g lh) (cache : ℕ → Option Block) (k : ℕ) :
    let m : Machine := ⟨d, cache, []⟩
    let d' := crashDisk d (commit g lh m) k
    if g.start ∈ ((commit g lh m).writes.take k).map Prod.fst then
      Committed g lh d (bread m) d' ∨ Settled g (installed lh d (bread m)) d'
    else Settled g d d' := by
  intro m d'
  by_cases hne : 0 < lh.length
  · have hm : commit g lh m = puts m (commitWrites g lh m) := hl.commit_eq hne m
    have hlen := logRecords_length g (bread m) 0 lh
    have hd' : d' = applyWrites d ((commitWrites g lh m).take k) := by
      simp only [d', hm]
      exact crashDisk_puts d cache _ k
    rw [hd', hm, writes_puts, nil_append]
    simp only [start_mem_take_commitWrites hl]
    rw [commitWrites, applyWrites_take_append, hlen]
    split
    next hk =>
      obtain ⟨j, hj⟩ : ∃ j, k - lh.length = j + 1 := ⟨k - lh.length - 1, by omega⟩
      rw [if_neg (by omega), hj, take_succ_cons, applyWrites_cons]
      exact (commit_head_committed hl _ _).tail_take hl _ j
    next hk =>
      rw [if_pos (by omega)]
      exact commit_take_before hl hz _ k
  · have hm : commit g lh m = m := if_neg hne
    rw [hm, if_neg (by simp [m])]
    simp only [d', hm]
    exact ⟨by simpa [crashDisk, m] using hz, fun b _ => by simp [crashDisk, m]⟩

/-- Crash atomicity. Cut `commit` after any number of its block writes, boot, and cut recovery
any number of times: outside the log area the disk ends with the old contents of every block, or
with the cached contents of all logged blocks, the latter exactly when the first header write had
reached the disk; and the log is empty again. -/
theorem commit_crash_atomic {g : LogArea} {d : Disk} (hr : Running g d)
    (cache : ℕ → Option Block) {lh : Logheader} (hl : Loggable g lh) (k : ℕ) (ks : List ℕ) :
    let m : Machine := ⟨d, cache, []⟩
    let final := (recoverAfter g ks (crashDisk d (commit g lh m) k)).disk
    headCount (final g.start) = 0 ∧ ∀ b, ¬ g.Contains b → final b =
      if g.start ∈ ((commit g lh m).writes.take k).map Prod.fst then
        if b ∈ lh then bread m b else d b
      else d b := by
  intro m final
  have hcrash := crashDisk_commit hr.headCount_eq hl cache k
  by_cases hreached : g.start ∈ ((commit g lh m).writes.take k).map Prod.fst
  · have hs : Settled g (installed lh d (bread m)) final := by
      rcases (if_pos hreached).mp hcrash with hc | hs
      · exact hc.recoverAfter hl ks
      · exact hs.recoverAfter ks
    simp only [hreached, if_true]
    exact ⟨hs.head, hs.home⟩
  · have hs : Settled g d final := Settled.recoverAfter ((if_neg hreached).mp hcrash) ks
    simp only [hreached, if_false]
    exact ⟨hs.head, hs.home⟩

/-- Two blocks committed on an empty log. The commit is cut in `install_trans`, with one of them
installed, and recovery is cut as well: the new contents of both survive. -/
theorem commit_crash_atomic_two_blocks : let g : LogArea := ⟨2, 30, by decide⟩
    let d := (recoverFromLog g (boot fun _ => Block.zero)).disk
    let v (b : ℕ) : Block := fun _ => b.toUInt8
    let m := commit g [50, 60] ⟨d, fun b => some (v b), []⟩
    ∀ b ∈ [50, 60], (recoverAfter g [1] (crashDisk d m 4)).disk b = v b := by
  intro g d v m b hb
  have hr : Running g d := .initlog _ (by simp [headCount])
  have hl : Loggable g [50, 60] :=
    ⟨by decide, by decide, by simp [g, LogArea.Contains], by simp⟩
  have h := (commit_crash_atomic hr (fun b => some (v b)) hl 4 [1]).2 b (hl.outside b hb)
  rw [if_pos (by decide), if_pos hb] at h
  exact h

end Xv6.Log
