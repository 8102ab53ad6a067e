import Xv6.Fs.Refs

/-! The calls on open files, and those that move or end a process. -/
namespace Xv6.Fs
open Function Hoare Counting
variable {P : Type} {E : Panic → Prop} {s t u : State P} {i : ℕ} {f : Fin nfile}

def Frees : (ℕ → Option Info) → (ℕ → Option Info) → Prop :=
  Relation.ReflTransGen fun V V' => ∃ i, Settles i V V'

def Rewrites (i : ℕ) (V V' : ℕ → Option Info) : Prop :=
  ∃ bs, V' = update V i ((V i).map fun x => { x with bytes := bs })

theorem Rewrites.refl (i : ℕ) (V : ℕ → Option Info) : Rewrites i V V := by
  cases hi : V i with
  | none => exact ⟨[], by rw [hi, Option.map_none, ← hi, update_eq_self]⟩
  | some x => exact ⟨x.bytes, by rw [hi, Option.map_some, ← hi, update_eq_self]⟩

theorem Rewrites.trans {V V' V'' : ℕ → Option Info} (h : Rewrites i V V') (h' : Rewrites i V' V'') :
    Rewrites i V V'' := by
  obtain ⟨bs, rfl⟩ := h
  obtain ⟨bs', rfl⟩ := h'
  refine ⟨bs', ?_⟩
  rw [update_self, update_idem, Option.map_map]
  rfl

variable {n fd : ℕ} {src : Src}

theorem Written.rewrites {off : ℕ} {r : Option ℕ} (h : Written i src off n s r t)
    (hs : s.Consistent) (hi : s.Locked i) : Rewrites i s.disk.info t.disk.info := by
  have ha := (hs.cached i hi).2
  have ha' := (h.consistent.cached i ((h.toLocal.locked_iff i).mpr hi)).2
  refine ⟨t.disk.contents i, ?_⟩
  rw [Volume.info_update h.sb hs.noHole h.others, Volume.info_of_allocated ha',
    Volume.info_of_allocated ha, h.attrs]
  rfl

theorem fdalloc_spec [DecidableEq P] {p : P} {pr : Proc} {Q : Option (Fin nofile) → State P → Prop}
    (hnone : (∀ fd, (pr.ofile fd).isSome) →
    Q none s) (hsome : ∀ fd, Q (some fd)
      (s.setProc p (some { pr with ofile := update pr.ofile fd (some f) }))) :
    wp (fdalloc p pr f) Q E s := by
  unfold fdalloc
  split
  next hfull =>
    refine hnone fun fd => ?_
    have := List.find?_eq_none.mp hfull fd (List.mem_finRange fd)
    simpa [Option.isSome_iff_ne_none] using this
  next fd _ => exact hsome fd

variable [Fintype P]

def SameFile (s t : State P) (f : Fin nfile) : Prop :=
  (t.file f).kind ≠ .none → (s.file f).kind ≠ .none ∧ (t.file f).ip = (s.file f).ip ∧
    (t.file f).writable = (s.file f).writable

structure Outcome (s t : State P) : Prop where
  kept : Kept s t
  ledger : Ledger t
  files : ∀ f, SameFile s t f

namespace Outcome

theorem refl (h : s.Consistent) (hl : Ledger s) : Outcome s s :=
  ⟨.refl h, hl, fun _ hk => ⟨hk, rfl, rfl⟩⟩

theorem trans (h : Outcome s t) (h' : Outcome t u) : Outcome s u where
  kept := h.kept.trans h'.kept
  ledger := h'.ledger
  files f hk := by
    obtain ⟨hkt, hip, hw⟩ := h'.files f hk
    obtain ⟨hks, hip', hw'⟩ := h.files f hkt
    exact ⟨hks, hip.trans hip', hw.trans hw'⟩

theorem setFile {x : File} (h : Outcome s t)
    (hx : ∀ j, File.holds j x = File.holds j (t.file f)) (hidle : x.ref = 0 → x.kind = .none)
    (hsame : x.kind ≠ .none → (t.file f).kind ≠ .none ∧ x.ip = (t.file f).ip ∧
      x.writable = (t.file f).writable) : Outcome s (t.setFile f x) := by
  refine h.trans ⟨.of_eq h.kept.consistent rfl rfl rfl, h.ledger.setFile hx hidle, fun f' hk => ?_⟩
  obtain rfl | hff := eq_or_ne f' f
  · simp only [State.setFile_file, update_self] at hk ⊢
    exact hsame hk
  · simp only [State.setFile_file, update_of_ne hff] at hk ⊢
    exact ⟨hk, trivial, trivial⟩

theorem setProc [DecidableEq P] {p : P} {x : Option Proc} (h : Outcome s t)
    (hx : ∀ j, Proc.holds j x = Proc.holds j (t.proc p)) : Outcome s (t.setProc p x) :=
  h.trans ⟨.of_eq h.kept.consistent rfl rfl rfl, h.ledger.setProc hx, fun _ hk => ⟨hk, rfl, rfl⟩⟩

end Outcome

theorem Holding.outcome (h : Holding 0 s t) (hl : Ledger s) : Outcome s t where
  kept := h.kept_zero
  ledger := hl.of_holding h
  files f := by
    rw [SameFile, h.file]
    exact fun hk => ⟨hk, rfl, rfl⟩

theorem Ledger.put_file {x : File} (h : Ledger s) (hf : (s.file f).kind ≠ .none)
    (hx : x.kind = .none)
    (hp : Put (s.file f).ip (s.setFile f x).beginOp t) : Ledger t where
  refs j := by
    have hr : 0 < (s.file f).ref := Nat.pos_of_ne_zero fun hz => hf (h.idle f hz)
    have htot := total_update (File.holds j) s.file f x
    have hxj : File.holds j x = 0 := if_neg fun hc => hc.2 hx
    have hfj : File.holds j (s.file f) = one (s.file f).ip j := if_pos ⟨hr, hf⟩
    have hproc : t.proc = s.proc := hp.proc
    have hfile : t.file = update s.file f x := hp.file
    have hj := h.refs j
    rw [hxj, hfj] at htot
    rw [hproc, hfile]
    by_cases hji : j = (s.file f).ip
    · have href : (t.inode j).ref = (s.inode j).ref - 1 := by
        rw [hji]
        exact hp.ref
      rw [hji, one_self, ← hji] at htot
      omega
    · have href : (t.inode j).ref = (s.inode j).ref := congrArg Inode.ref (hp.others j hji)
      rw [one_of_ne hji] at htot
      omega
  idle f' := by
    have hfile : t.file = update s.file f x := hp.file
    rw [hfile]
    obtain rfl | hff := eq_or_ne f' f
    · rw [update_self]
      exact fun _ => hx
    · rw [update_of_ne hff]
      exact h.idle f'

theorem fileclose_spec (hE : Lenient E) (h : s.Consistent) (hl : Ledger s) (hop : s.inOp = false) :
    wp (fileclose f) (fun _ t => Outcome s t ∧ t.proc = s.proc ∧
      Frees s.disk.info t.disk.info) E s := by
  have herr : E .fileclose := hE _ (by decide) (by decide) (by decide)
  have hself : Outcome s s := .refl h hl
  unfold fileclose
  simp only [wp_bind, wp_get]
  split
  · exact herr
  next hr =>
    split
    next hmany =>
      refine ⟨hself.setFile (fun j => ?_) (fun hz => ?_) fun hk => ⟨hk, rfl, rfl⟩, rfl, .refl⟩
      · have h1 : 0 < (s.file f).ref := by omega
        simp only [File.holds, hmany, h1, true_and]
      · dsimp only at hz
        omega
    next hlast =>
      simp only [wp_bind, wp_set]
      split
      next hk =>
        refine ⟨hself.setFile (fun j => ?_) (fun _ => rfl) fun hc => absurd rfl hc, rfl, .refl⟩
        simp [File.holds, hk]
      next hk =>
        have hpos := hl.file_pos hk
        obtain ⟨x, hx⟩ : ∃ x : File, x = { s.file f with ref := 0, kind := .none } := ⟨_, rfl⟩
        rw [← hx]
        have hcon : (s.setFile f x).beginOp.Consistent := ⟨h.sound, h.noHole, h.cached⟩
        rw [wp_bind, beginOp, wp_modify]
        refine wp_seq (iput_spec (hE.logs _) hcon hpos) (fun _ t ht => ?_)
        refine ⟨⟨?_, ?_, fun f' => ?_⟩, ht.proc, .single ⟨_, ht.settles hcon⟩⟩
        · exact (Kept.of_eq (t := s.setFile f x) h rfl rfl rfl).trans
            (ht.kept.beginOp_endOp (s := s.setFile f x) hop)
        · have hlt : Ledger t := hl.put_file hk (by rw [hx]) ht
          exact ⟨hlt.refs, hlt.idle⟩
        · have hfile : t.endOp.file = update s.file f x := ht.file
          rw [SameFile, hfile]
          obtain rfl | hff := eq_or_ne f' f
          · rw [update_self, hx]
            exact fun hc => absurd rfl hc
          · rw [update_of_ne hff]
            exact fun hc => ⟨hc, rfl, rfl⟩

theorem filedup_spec (hE : Lenient E) (h : s.Consistent) (hl : Ledger s) :
    wp (filedup f) (fun _ t => Outcome s t ∧ t.proc = s.proc ∧ t.disk = s.disk) E s := by
  have herr : E .filedup := hE _ (by decide) (by decide) (by decide)
  unfold filedup
  simp only [wp_bind, wp_get]
  split
  · exact herr
  next hr =>
    refine ⟨(Outcome.refl h hl).setFile (fun j => ?_) (fun hz => ?_) fun hk => ⟨hk, rfl, rfl⟩,
      rfl, rfl⟩
    · have h1 : 0 < (s.file f).ref := by omega
      simp only [File.holds, h1, Nat.succ_pos, true_and]
    · dsimp only at hz
      omega

theorem Outcome.setOff (h : Outcome s t) (off : ℕ) :
    Outcome s (t.setFile f { t.file f with off := off }) :=
  h.setFile (fun _ => rfl) (h.ledger.idle f) fun hk => ⟨hk, rfl, rfl⟩

theorem fileread_spec {dst : ℕ → Bool} (hE : Lenient E) (h : s.Consistent) (hl : Ledger s)
    (hty : E .noType ∨ s.Alive) :
    wp (fileread f dst n) (fun _ t => Outcome s t ∧ t.disk = s.disk) E s := by
  have herr : E .fileread := hE _ (by decide) (by decide) (by decide)
  have hself : Outcome s s := .refl h hl
  unfold fileread
  simp only [wp_bind, wp_get]
  split
  · exact ⟨hself, rfl⟩
  split
  · exact herr
  · exact ⟨hself, rfl⟩
  next hk =>
    have hpos := hl.file_pos (f := f) (by rw [hk]; decide)
    refine wp_seq (ilock_spec hE h (hty.imp id fun ha => (ha _ hpos).2)) (fun _ t ht => ?_)
    have hht := ht.holding h
    refine wp_seq (readi_spec hht.consistent ht.locked dst _ n) ?_
    rintro r t' ⟨rfl, _⟩
    rw [wp_bind, wp_modify]
    refine wp_seq (iunlock_spec hE) ?_
    rintro _ u ⟨rfl, _⟩
    exact ⟨(hht.outcome hl).setOff _, ht.disk⟩

structure Writing (f : Fin nfile) (s t : State P) : Prop extends Outcome s t where
  kind : (t.file f).kind ≠ .none
  ip : (t.file f).ip = (s.file f).ip
  proc : t.proc = s.proc
  rewrites : Rewrites (s.file f).ip s.disk.info t.disk.info

section
variable (hE : Lenient E) (hop : s.inOp = false) (hty : E .noType ∨ s.Alive)
include hE hop hty

theorem filewriteSection_spec (ht : Writing f s t) (i n1 : ℕ) :
    wp (filewriteSection f src i n1) (fun _ u => Writing f s u) E t := by
  have hcon : t.beginOp.Consistent := ht.kept.consistent.beginOp
  have hopt : t.inOp = false := ht.kept.inOp.trans hop
  have hpos := ht.ledger.file_pos ht.kind
  have htype : E .noType ∨ (t.beginOp.disk.dinode (t.file f).ip).type ≠ .free :=
    hty.imp id fun ha => (ht.kept.alive ha _ hpos).2
  unfold filewriteSection
  rw [wp_bind, beginOp, wp_modify, wp_bind, wp_get]
  refine wp_seq (ilock_spec hE hcon htype) (fun _ u hu => ?_)
  have hhu := hu.holding hcon
  refine wp_seq (writei_spec (hE.logs u) hhu.consistent hu.locked _ _) (fun r v hv => ?_)
  have hhv : Holding 0 t v.endOp := (hhu.step (hv.holding hu.locked)).endOp hopt
  rw [wp_bind, wp_modify]
  refine wp_seq (iunlock_spec hE) ?_
  rintro _ w ⟨hw, _⟩
  have hfile : v.file f = t.file f := congrFun hhv.file f
  have hout := (ht.trans (hhv.outcome ht.ledger)).setOff (f := f) ((v.file f).off + r.getD 0)
  subst hw
  refine ⟨⟨hout.kept, hout.ledger, hout.files⟩, ?_, ?_, ?_, ?_⟩
  · simpa [hfile] using ht.kind
  · simpa [hfile] using ht.ip
  · exact hhv.proc.trans ht.proc
  · refine ht.rewrites.trans ?_
    have hrew := hv.rewrites hhu.consistent hu.locked
    rw [hu.disk] at hrew
    rw [← ht.ip]
    exact hrew

theorem filewriteLoop_spec (fuel : ℕ) : ∀ i n (t : State P), Writing f s t →
    wp (filewriteLoop f src fuel i n) (fun _ u => Writing f s u) E t := by
  induction fuel with
  | zero => exact fun i n t ht => ht
  | succ fuel ih =>
    intro i n t ht
    unfold filewriteLoop
    split
    · exact ht
    refine wp_seq (filewriteSection_spec hE hop hty ht _ _) (fun ok u hu => ?_)
    cases ok with
    | true => exact ih _ _ _ hu
    | false => exact hu

end

section
variable (hE : Lenient E) (h : s.Consistent) (hl : Ledger s)
include hE h hl

theorem filewrite_spec (hop : s.inOp = false) (hty : E .noType ∨ s.Alive) :
    wp (filewrite f src n) (fun _ t => Outcome s t ∧ (t.disk = s.disk ∨
      (s.file f).kind ≠ .none ∧ (s.file f).writable = true ∧
        Rewrites (s.file f).ip s.disk.info t.disk.info)) E s := by
  have herr : E .filewrite := hE _ (by decide) (by decide) (by decide)
  have hself : Outcome s s := .refl h hl
  unfold filewrite
  simp only [wp_bind, wp_get]
  split
  · exact ⟨hself, .inl rfl⟩
  next hwr =>
    split
    · exact herr
    · exact ⟨hself, .inl rfl⟩
    next hk =>
      have hk' : (s.file f).kind ≠ .none := by
        rw [hk]
        decide
      refine wp_seq (filewriteLoop_spec hE hop hty n 0 n s ⟨hself, hk', rfl, rfl, .refl _ _⟩)
        (fun r t ht => ?_)
      exact ⟨ht.toOutcome, .inr ⟨hk', by simpa using hwr, ht.rewrites⟩⟩

theorem sysRead_spec {pr : Proc} {dst : ℕ → Bool} (hty : E .noType ∨ s.Alive) :
    wp (sysRead pr fd dst n) (fun _ t => Outcome s t ∧ t.disk = s.disk) E s := by
  unfold sysRead
  split
  · exact ⟨.refl h hl, rfl⟩
  · exact fileread_spec hE h hl hty

theorem sysWrite_spec {pr : Proc} (hop : s.inOp = false) (hty : E .noType ∨ s.Alive) :
    wp (sysWrite pr fd src n) (fun _ t => Outcome s t ∧ (t.disk = s.disk ∨ ∃ f,
      (s.file f).kind ≠ .none ∧ (s.file f).writable = true ∧
        Rewrites (s.file f).ip s.disk.info t.disk.info)) E s := by
  unfold sysWrite
  split
  · exact ⟨.refl h hl, .inl rfl⟩
  · refine wp_post (filewrite_spec hE h hl hop hty) (fun _ t ht => ?_)
    exact ⟨ht.1, ht.2.imp id fun hw => ⟨_, hw⟩⟩

end

variable [DecidableEq P] {p : P} {pr : Proc}

theorem Outcome.setOfile (h : Outcome s t) (hp : t.proc p = some pr)
    (ofile : Fin nofile → Option (Fin nfile)) :
    Outcome s (t.setProc p (some { pr with ofile := ofile })) :=
  h.setProc fun j => by rw [hp]; rfl

theorem sysDup_spec (hE : Lenient E) (h : s.Consistent) (hl : Ledger s) (hp : s.proc p = some pr) :
    wp (sysDup p pr fd) (fun _ t => Outcome s t ∧ t.disk = s.disk) E s := by
  have hself : Outcome s s := .refl h hl
  unfold sysDup
  split
  · exact ⟨hself, rfl⟩
  next f _ =>
    rw [wp_bind]
    refine fdalloc_spec (fun _ => ⟨hself, rfl⟩) fun fd' => ?_
    have hset := hself.setOfile hp (update pr.ofile fd' (some f))
    refine wp_seq (filedup_spec hE hset.kept.consistent hset.ledger) (fun _ t ht => ?_)
    exact ⟨hset.trans ht.1, ht.2.2⟩

theorem sysClose_spec (hE : Lenient E) (h : s.Consistent) (hl : Ledger s)
    (hop : s.inOp = false) (hp : s.proc p = some pr) :
    wp (sysClose p pr fd) (fun _ t => Outcome s t ∧ Frees s.disk.info t.disk.info) E s := by
  have hself : Outcome s s := .refl h hl
  unfold sysClose
  split
  · exact ⟨hself, .refl⟩
  next fd' f _ =>
    have hset := hself.setOfile hp (update pr.ofile fd' none)
    rw [wp_bind, wp_modify]
    refine wp_seq (fileclose_spec hE hset.kept.consistent hset.ledger hop) (fun _ t ht => ?_)
    exact ⟨hset.trans ht.1, ht.2.2⟩

/-- Process `p` comes, goes or moves to another directory; the table has followed. -/
theorem Ledger.move {x : Option Proc} (h : Ledger s) (hfile : t.file = s.file)
    (hproc : t.proc = update s.proc p x)
    (hrefs : ∀ j, (t.inode j).ref + Proc.holds j (s.proc p) = (s.inode j).ref + Proc.holds j x) :
    Ledger t where
  refs j := by
    have htot := total_update (Proc.holds j) s.proc p x
    have hj := h.refs j
    have hr := hrefs j
    rw [hproc, hfile]
    omega
  idle := by
    rw [hfile]
    exact h.idle

variable (hE : Lenient E) (h : s.Consistent) (hl : Ledger s)
include hE h hl

theorem sysChdir_spec {str : Option (List UInt8)} (hop : s.inOp = false) (hp : s.proc p = some pr)
    (hty : E .noType ∨ Safe pr.cwd s) :
    wp (sysChdir p pr str) (fun _ t => Outcome s t ∧
      (s.Anchored → Frees s.disk.info t.disk.info)) E s := by
  have hc := hl.cwd_pos hp
  have hnone u (hu : Holding 0 s u) (hd : s.Anchored → u.disk = s.disk) : Outcome s u ∧
      (s.Anchored → Frees s.disk.info u.disk.info) := by
    refine ⟨hu.outcome hl, fun ha => ?_⟩
    rw [hd ha]
    exact .refl
  unfold sysChdir
  rw [wp_bind, beginOp, wp_modify]
  split
  · exact hnone _ ((Holding.refl h.beginOp).endOp hop) fun _ => rfl
  rw [wp_bind]
  refine wp_post (namei_spec hE h.beginOp hc hty) (fun r t hr => ?_)
  cases r with
  | none =>
    obtain ⟨ht, hd⟩ := hr
    exact hnone _ (ht.endOp hop) hd
  | some ip =>
    obtain ⟨ht, hd, htype⟩ := hr
    refine wp_seq (walked_lock hE ht hd htype) ?_
    rintro _ u ⟨hu, hhu, hdu⟩
    simp only [wp_bind, wp_get]
    split
    · exact put_endOp hE hop hhu hdu hnone
    have hcu : 0 < (u.inode pr.cwd).ref := by
      rw [hhu.ref]
      exact Nat.add_pos_left hc _
    refine wp_seq (iunlock_spec hE) ?_
    rintro _ u' ⟨rfl, _⟩
    refine wp_seq (iput_spec (hE.logs u') hhu.consistent hcu) (fun _ v hv => ?_)
    rw [wp_bind, Fs.endOp, wp_modify, wp_bind, wp_modify]
    have hkept : Kept s v.endOp := ((hhu.kept_one hu.locked).trans hv.kept).beginOp_endOp hop
    have hfile : v.file = s.file := hv.file.trans hhu.file
    refine ⟨⟨?_, ?_, fun f => ?_⟩, fun ha => ?_⟩
    · exact hkept.trans (.of_eq hkept.consistent rfl rfl rfl)
    · refine hl.move (p := p) (x := some { pr with cwd := ip }) hfile ?_ fun j => ?_
      · have hproc : v.proc = s.proc := hv.proc.trans hhu.proc
        rw [← hproc]
        rfl
      · have hj := hhu.ref j
        change (u'.inode j).ref = (s.inode j).ref + one ip j at hj
        change (v.inode j).ref + _ = (s.inode j).ref + one ip j
        rw [hp]
        change (v.inode j).ref + one pr.cwd j = _
        by_cases hji : j = pr.cwd
        · rw [hji] at hj ⊢
          rw [hv.ref, one_self]
          omega
        · rw [hv.others j hji, one_of_ne hji]
          omega
    · change SameFile s v f
      rw [SameFile, hfile]
      exact fun hk => ⟨hk, rfl, rfl⟩
    · have hset := hv.settles hhu.consistent
      rw [hdu ha] at hset
      exact .single ⟨_, hset⟩

theorem fork_spec {q : P} (hp : s.proc p = some pr) (hq : s.proc q = none) :
    wp (fork pr q) (fun _ t => Outcome s t ∧ t.disk = s.disk) E s := by
  unfold fork
  refine wp_seq (wp_forM (fun _ t => Outcome s t ∧ t.proc = s.proc ∧ t.disk = s.disk) ?_ _ s
    ⟨.refl h hl, rfl, rfl⟩) (fun _ t ht => ?_)
  · rintro fd _ t ⟨hout, hproc, hdisk⟩
    split
    · exact ⟨hout, hproc, hdisk⟩
    · refine wp_post (filedup_spec hE hout.kept.consistent hout.ledger) (fun _ u hu => ?_)
      exact ⟨hout.trans hu.1, hu.2.1.trans hproc, hu.2.2.trans hdisk⟩
  · obtain ⟨hout, hproc, hdisk⟩ := ht
    have hpos : 0 < (t.inode pr.cwd).ref := hout.ledger.cwd_pos (p := p) (by rw [hproc, hp])
    refine wp_seq (idup_spec hpos) (fun _ u hu => ?_)
    have hhu := hu.holding hout.kept.consistent
    have hku : Kept t u := by
      refine ⟨hhu.consistent, hhu.anchored, fun ha j hj => ?_, hhu.short, hhu.inOp, hhu.sb⟩
      rw [hu.disk]
      refine ha j ?_
      by_cases hji : j = pr.cwd
      · rw [hji]
        exact hpos
      · rwa [← hu.others j hji]
    rw [wp_bind, wp_modify]
    refine ⟨hout.trans ⟨hku.trans (.of_eq hku.consistent rfl rfl rfl), ?_, fun f => ?_⟩,
      hu.disk.trans hdisk⟩
    · refine hout.ledger.move (p := q) (x := some pr) hu.file ?_ fun j => ?_
      · rw [← hu.proc]
        rfl
      · have hj := hhu.ref j
        rw [hproc, hq]
        exact hj
    · change SameFile t u f
      rw [SameFile, hu.file]
      exact fun hk => ⟨hk, rfl, rfl⟩

theorem exit_spec (hop : s.inOp = false) (hp : s.proc p = some pr) :
    wp (exit p pr) (fun _ t => Outcome s t ∧ Frees s.disk.info t.disk.info) E s := by
  unfold exit
  refine wp_seq (wp_forM (fun _ t => Outcome s t ∧ t.proc = s.proc ∧
    Frees s.disk.info t.disk.info) ?_ _ s ⟨.refl h hl, rfl, .refl⟩) (fun _ t ht => ?_)
  · rintro fd _ t ⟨hout, hproc, hfrees⟩
    split
    · exact ⟨hout, hproc, hfrees⟩
    · refine wp_post (fileclose_spec hE hout.kept.consistent hout.ledger (hout.kept.inOp.trans hop))
        (fun _ u hu => ?_)
      exact ⟨hout.trans hu.1, hu.2.1.trans hproc, hfrees.trans hu.2.2⟩
  · obtain ⟨hout, hproc, hfrees⟩ := ht
    have hcon : t.beginOp.Consistent := hout.kept.consistent.beginOp
    have hpos : 0 < (t.beginOp.inode pr.cwd).ref :=
      hout.ledger.cwd_pos (p := p) (by rw [hproc, hp])
    rw [wp_bind, beginOp, wp_modify]
    refine wp_seq (iput_spec (hE.logs _) hcon hpos) (fun _ u hu => ?_)
    rw [wp_bind, Fs.endOp, wp_modify, wp_bind, wp_modify]
    have hku : Kept t u.endOp := hu.kept.beginOp_endOp (hout.kept.inOp.trans hop)
    refine ⟨hout.trans ⟨hku.trans (.of_eq hku.consistent rfl rfl rfl), ?_, fun f => ?_⟩,
      hfrees.tail ⟨_, hu.settles hcon⟩⟩
    · refine hout.ledger.move (p := p) (x := none) hu.file ?_ fun j => ?_
      · have hup : u.proc = t.proc := hu.proc
        rw [← hup]
        rfl
      · change (u.inode j).ref + _ = (t.inode j).ref + 0
        rw [hproc, hp]
        change (u.inode j).ref + one pr.cwd j = _
        by_cases hji : j = pr.cwd
        · have hr := hu.ref
          rw [hji, one_self]
          change (u.inode pr.cwd).ref = (t.inode pr.cwd).ref - 1 at hr
          change 0 < (t.inode pr.cwd).ref at hpos
          omega
        · rw [hu.others j hji, one_of_ne hji]
          rfl
    · change SameFile t u f
      have hfile : u.file = t.file := hu.file
      rw [SameFile, hfile]
      exact fun hk => ⟨hk, rfl, rfl⟩

end Xv6.Fs
