import Xv6.Sh.Cmd

/-! The descriptors of the processes of a command. -/
namespace Xv6.Sh
open Transition Function
attribute [local simp] Side.file
variable {fds : Table} {pr : Proc} {s t : State} {n pid : ℕ} {inside : List (ℕ × Side)}
variable {f : File} {fd k : ℕ} {sd : Side} {cmd : Cmd} {nd : Node} {code : List Instr}

theorem fdalloc_eq (hlt : fd < nofile) (hfree : fds fd = none) (hused : ∀ k < fd, fds k ≠ none) :
    fdalloc fds f = some (fd, Function.update fds fd (some f)) := by
  have hfind : ((List.range nofile).find? fun fd => (fds fd).isNone) = some fd := by
    rw [List.find?_range_eq_some]
    refine ⟨by simp [hfree], by simpa using hlt, fun k hk => ?_⟩
    simpa [Option.isSome_iff_ne_none] using hused k hk
  rw [fdalloc, hfind]
  rfl

/-- Three open files; an end of a pipe is only on its own side. -/
structure Clean (fds : Table) (inside : List (ℕ × Side)) : Prop where
  isSome_iff : ∀ k, (fds k).isSome ↔ k < 3
  side : ∀ k n sd, fds k = some (sd.file n) → (n, sd) ∈ inside

namespace Clean
variable (h : Clean fds inside)
include h

theorem eq_none (hk : 3 ≤ k) : fds k = none := by
  have := (h.isSome_iff k).not.mpr (by omega)
  simpa using this

theorem ne_none (hk : k < 3) : fds k ≠ none :=
  Option.isSome_iff_ne_none.mp ((h.isSome_iff k).mpr hk)

theorem mono (x : ℕ × Side) : Clean fds (x :: inside) :=
  ⟨h.isSome_iff, fun k n sd hk => List.mem_cons_of_mem x (h.side k n sd hk)⟩

theorem update (hfd : fd < 3) (hf : ∀ n sd, f = sd.file n → (n, sd) ∈ inside) :
    Clean (Function.update fds fd (some f)) inside where
  isSome_iff k := by
    obtain rfl | hk := eq_or_ne k fd
    · simp [hfd]
    · rw [update_of_ne hk]
      exact h.isSome_iff k
  side k n sd hk := by
    obtain rfl | hkf := eq_or_ne k fd
    · rw [update_self] at hk
      exact hf n sd (Option.some.inj hk)
    · rw [update_of_ne hkf] at hk
      exact h.side k n sd hk

end Clean

def Node.sub (nd : Node) : Side → Cmd
  | .left => nd.left
  | .right => nd.right

def Node.both (nd : Node) (n : ℕ) : Table :=
  Function.update (Function.update nd.fds 3 (some (.readEnd n))) 4 (some (.writeEnd n))

theorem Side.file_inj {m : ℕ} {sd' : Side} (h : sd.file n = sd'.file m) : n = m ∧ sd = sd' := by
  cases sd <;> cases sd' <;> simp_all

/-- The code of a process that has the three files open. -/
inductive Plain : List Instr → Prop where
  | run (cmd : Cmd) : Plain [.run cmd]
  | exec (argv : List Word) : Plain [.exec argv]
  | exit : Plain [.exit]
  | redir (fd : Fin 3) (file : Word) (mode : ℕ) (cmd : Cmd) :
      Plain [.close (.lit fd), .open file mode, .run cmd]
  | listFork (left right : Cmd) : Plain [.fork none left, .wait, .run right]
  | listWait (right : Cmd) : Plain [.wait, .run right]
  | backFork (cmd : Cmd) : Plain [.fork none cmd, .exit]
  | pipe (left right : Cmd) : Plain (runcmd (.pipe left right))
  | pipeWait : Plain [.wait, .wait, .exit]
  | pipeWait2 : Plain [.wait, .exit]

inductive Making (nd : Node) (n : ℕ) : List Instr → Table → Prop where
  | forkLeft : Making nd n [.fork (some .left) nd.left, .fork (some .right) nd.right, .close .p0,
      .close .p1, .wait, .wait, .exit] (nd.both n)
  | forkRight : Making nd n [.fork (some .right) nd.right, .close .p0, .close .p1, .wait, .wait,
      .exit] (nd.both n)
  | close0 : Making nd n [.close .p0, .close .p1, .wait, .wait, .exit] (nd.both n)
  | close1 : Making nd n [.close .p1, .wait, .wait, .exit] (Function.update (nd.both n) 3 none)

inductive Entering (nd : Node) (n : ℕ) (sd : Side) : List Instr → Table → Prop where
  | close : Entering nd n sd (childCode (some sd) (nd.sub sd)) (nd.both n)
  | dup : Entering nd n sd [.dup sd.arg, .close .p0, .close .p1, .run (nd.sub sd)]
      (Function.update (nd.both n) sd.fd none)
  | close0 : Entering nd n sd [.close .p0, .close .p1, .run (nd.sub sd)]
      (Function.update (nd.both n) sd.fd (some (sd.file n)))
  | close1 : Entering nd n sd [.close .p1, .run (nd.sub sd)]
      (Function.update (Function.update (nd.both n) sd.fd (some (sd.file n))) 3 none)

inductive Ok (node : ℕ → Option Node) (pid : ℕ) (pr : Proc) : Prop where
  | plain (hcode : Plain pr.code) (h : Clean pr.fds pr.inside)
  | gone (hcode : pr.code = []) (h : ∀ k, pr.fds k = none)
  | opening {file : Word} {mode : ℕ} {cmd : Cmd} {o : Table} (fd : Fin 3)
      (hcode : pr.code = [.open file mode, .run cmd]) (ho : Clean o pr.inside)
      (h : pr.fds = Function.update o fd none)
  | making {nd : Node} (hnode : node pr.made = some nd) (hpid : nd.pid = pid) (hp : pr.p = (3, 4))
      (ho : Clean nd.fds pr.inside) (h : Making nd pr.made pr.code pr.fds)
  | entering {nd : Node} {sd : Side} {rest : List (ℕ × Side)} (hnode : node pr.made = some nd)
      (hin : pr.inside = (pr.made, sd) :: rest) (hp : pr.p = (3, 4)) (ho : Clean nd.fds rest)
      (h : Entering nd pr.made sd pr.code pr.fds)

theorem Ok.mono {node node' : ℕ → Option Node} (h : Ok node pid pr)
    (hn : ∀ n nd, node n = some nd → node' n = some nd) : Ok node' pid pr := by
  cases h with
  | plain hcode h => exact .plain hcode h
  | gone hcode h => exact .gone hcode h
  | opening fd hcode ho h => exact .opening fd hcode ho h
  | making hnode hpid hp ho h => exact .making (hn _ _ hnode) hpid hp ho h
  | entering hnode hin hp ho h => exact .entering (hn _ _ hnode) hin hp ho h

theorem plain_runcmd (cmd : Cmd) : Plain (runcmd cmd) := by
  cases cmd with
  | exec argv =>
    rw [runcmd]
    split
    · exact .exit
    · exact .exec argv
  | redir cmd file mode fd => exact .redir fd file mode cmd
  | pipe left right => exact .pipe left right
  | list left right => exact .listFork left right
  | back cmd => exact .backFork cmd

inductive Stepped (s : State) (pid : ℕ) : State → Prop where
  | move {pr : Proc} (h : Ok s.node pid pr) : Stepped s pid (s.setProc pid pr)
  | pipe {pr : Proc} {nd : Node} (h : Ok (Function.update s.node s.nextPipe (some nd)) pid pr) :
      Stepped s pid { s.setProc pid pr with
        nextPipe := s.nextPipe + 1
        node := Function.update s.node s.nextPipe (some nd) }
  | fork {pr ch : Proc} (h : Ok s.node pid pr) (hch : Ok s.node s.nextPid ch) :
      Stepped s pid { (s.setProc pid pr).setProc s.nextPid ch with nextPid := s.nextPid + 1 }

theorem pipe_eq (h : Clean pr.fds inside) (n : ℕ) : pr.pipe n = some { pr with
      fds := Function.update (Function.update pr.fds 3 (some (.readEnd n))) 4 (some (.writeEnd n))
      p := (3, 4)
      made := n } := by
  have h3 : fdalloc pr.fds (.readEnd n) = some (3, Function.update pr.fds 3 (some (.readEnd n))) :=
    fdalloc_eq (by decide) (h.eq_none le_rfl) fun k hk => h.ne_none hk
  have h4 : fdalloc (Function.update pr.fds 3 (some (.readEnd n))) (.writeEnd n) =
      some (4, Function.update (Function.update pr.fds 3 (some (.readEnd n))) 4
        (some (.writeEnd n))) := by
    refine fdalloc_eq (by decide) ?_ fun k hk => ?_
    · rw [update_of_ne (by decide)]
      exact h.eq_none (by decide)
    · by_cases hk3 : k = 3
      · simp [hk3]
      · rw [update_of_ne hk3]
        exact h.ne_none (by omega)
  rw [Proc.pipe, h3]
  dsimp only
  rw [h4]

theorem step_plain (hcode : Plain pr.code) (h : Clean pr.fds pr.inside)
    (ht : s.step pid pr = some t) : Stepped s pid t := by
  generalize hc : pr.code = code at hcode
  rw [State.step, hc] at ht
  cases hcode with
  | run cmd =>
    cases ht
    exact .move (.plain (plain_runcmd cmd) h)
  | exec argv =>
    cases ht
    exact .move (.plain .exit h)
  | exit =>
    cases ht
    exact .move (.gone rfl fun _ => rfl)
  | redir fd file mode cmd =>
    cases ht
    exact .move (.opening fd rfl h rfl)
  | listFork left right =>
    cases ht
    exact .fork (.plain (.listWait right) h) (.plain (.run left) h)
  | listWait right | pipeWait | pipeWait2 => cases ht
  | backFork cmd =>
    cases ht
    exact .fork (.plain .exit h) (.plain (.run cmd) h)
  | pipe left right =>
    simp only [runcmd, pipe_eq h] at ht
    cases ht
    exact .pipe (.making (update_self ..) rfl rfl h .forkLeft)

theorem step_opening {file : Word} {mode : ℕ} {o : Table} {fd : Fin 3}
    (hcode : pr.code = [.open file mode, .run cmd]) (ho : Clean o pr.inside)
    (h : pr.fds = Function.update o fd none) (ht : s.step pid pr = some t) : Stepped s pid t := by
  have halloc : fdalloc pr.fds (.opened file mode) =
      some (fd.val, Function.update pr.fds fd (some (.opened file mode))) := by
    rw [h]
    refine fdalloc_eq (lt_trans fd.isLt (by decide)) (update_self ..) fun k hk => ?_
    rw [update_of_ne (by omega)]
    exact ho.ne_none (hk.trans fd.isLt)
  rw [State.step, hcode] at ht
  simp only [halloc] at ht
  cases ht
  refine .move (.plain (.run cmd) ?_)
  rw [Proc.setCode_fds, Proc.setFds_fds, h, update_idem]
  exact ho.update fd.isLt fun n sd hf => by cases sd <;> cases hf

private theorem both_three (nd : Node) (n : ℕ) : nd.both n 3 = some (.readEnd n) := by
  simp [Node.both]

private theorem both_four (nd : Node) (n : ℕ) : nd.both n 4 = some (.writeEnd n) := by
  simp [Node.both]

private theorem both_closed (ho : Clean nd.fds inside) (n : ℕ) :
    Function.update (Function.update (nd.both n) 3 none) 4 none = nd.fds := by
  funext k
  obtain rfl | h4 := eq_or_ne k 4
  · simpa using (ho.eq_none (by decide)).symm
  · obtain rfl | h3 := eq_or_ne k 3
    · simpa using (ho.eq_none (by decide)).symm
    · simp [Node.both, h3, h4]

theorem step_making (hnode : s.node pr.made = some nd) (hpid : nd.pid = pid)
    (hp : pr.p = (3, 4)) (ho : Clean nd.fds pr.inside) (h : Making nd pr.made pr.code pr.fds)
    (ht : s.step pid pr = some t) : Stepped s pid t := by
  generalize hc : pr.code = code at h
  generalize hf : pr.fds = fds at h
  rw [State.step, hc] at ht
  cases h with
  | forkLeft =>
    cases ht
    refine .fork (.making hnode hpid hp ho ?_) (@Ok.entering _ _ _ nd .left _ hnode rfl hp ho ?_)
    · rw [Proc.setCode_fds, hf]
      exact .forkRight
    · rw [Proc.child_fds, hf]
      exact .close
  | forkRight =>
    cases ht
    refine .fork (.making hnode hpid hp ho ?_) (@Ok.entering _ _ _ nd .right _ hnode rfl hp ho ?_)
    · rw [Proc.setCode_fds, hf]
      exact .close0
    · rw [Proc.child_fds, hf]
      exact .close
  | close0 =>
    cases ht
    refine .move (.making hnode hpid hp ho ?_)
    rw [Proc.setCode_fds, Proc.setFds_fds, hf, Proc.fd, hp]
    exact .close1
  | close1 =>
    cases ht
    refine .move (.plain .pipeWait ?_)
    rw [Proc.setCode_fds, Proc.setFds_fds, hf, Proc.fd, hp, both_closed ho]
    exact ho

private theorem fd_lt (sd : Side) : sd.fd < 3 := by
  cases sd <;> decide

theorem dup_eq (ho : Clean nd.fds inside) (n : ℕ) (hp : pr.p = (3, 4))
    (hf : pr.fds = Function.update (nd.both n) sd.fd none) :
    pr.dup (pr.fd sd.arg) =
      pr.setFds (Function.update (nd.both n) sd.fd (some (sd.file n))) := by
  have hend : pr.fds (pr.fd sd.arg) = some (sd.file n) := by
    cases sd
    · simp [Side.arg, Proc.fd, hp, hf, Side.fd, both_four]
    · simp [Side.arg, Proc.fd, hp, hf, Side.fd, both_three]
  have halloc : fdalloc pr.fds (sd.file n) =
      some (sd.fd, Function.update pr.fds sd.fd (some (sd.file n))) := by
    rw [hf]
    refine fdalloc_eq ((fd_lt sd).trans (by decide)) (update_self ..) fun k hk => ?_
    have := fd_lt sd
    rw [update_of_ne (by omega), Node.both, update_of_ne (by omega), update_of_ne (by omega)]
    exact ho.ne_none (by omega)
  rw [Proc.dup, hend]
  simp only [halloc]
  rw [hf, update_idem]

theorem entered (ho : Clean nd.fds inside) (n : ℕ) :
    Function.update (Function.update (Function.update (nd.both n) sd.fd (some (sd.file n)))
      3 none) 4 none = Function.update nd.fds sd.fd (some (sd.file n)) := by
  have := fd_lt sd
  rw [update_comm (by omega : (3 : ℕ) ≠ sd.fd).symm,
    update_comm (by omega : (4 : ℕ) ≠ sd.fd).symm, both_closed ho]

theorem step_entering {rest : List (ℕ × Side)} (hnode : s.node pr.made = some nd)
    (hin : pr.inside = (pr.made, sd) :: rest) (hp : pr.p = (3, 4)) (ho : Clean nd.fds rest)
    (h : Entering nd pr.made sd pr.code pr.fds) (ht : s.step pid pr = some t) :
    Stepped s pid t := by
  generalize hc : pr.code = code at h
  generalize hf : pr.fds = fds at h
  rw [State.step, hc] at ht
  cases h with
  | close =>
    cases ht
    refine .move (.entering hnode hin hp ho ?_)
    rw [Proc.setCode_fds, Proc.setFds_fds, hf]
    exact .dup
  | dup =>
    cases ht
    rw [dup_eq ho pr.made hp hf]
    exact .move (.entering hnode hin hp ho .close0)
  | close0 =>
    cases ht
    refine .move (.entering hnode hin hp ho ?_)
    rw [Proc.setCode_fds, Proc.setFds_fds, hf, Proc.fd, hp]
    exact .close1
  | close1 =>
    cases ht
    refine .move (.plain (.run _) ?_)
    rw [Proc.setCode_fds, Proc.setFds_fds, hf, Proc.fd, hp, entered ho, Proc.setCode_inside,
      Proc.setFds_inside, hin]
    refine (ho.mono _).update (fd_lt sd) fun n sd' hfile => ?_
    obtain ⟨rfl, rfl⟩ := Side.file_inj hfile
    exact (.head _)

theorem step_ok (h : Ok s.node pid pr) (ht : s.step pid pr = some t) : Stepped s pid t := by
  cases h with
  | plain hcode h => exact step_plain hcode h ht
  | gone hcode h =>
    rw [State.step, hcode] at ht
    cases ht
  | opening fd hcode ho h => exact step_opening hcode ho h ht
  | making hnode hpid hp ho h => exact step_making hnode hpid hp ho h ht
  | entering hnode hin hp ho h => exact step_entering hnode hin hp ho h ht

theorem wait_ok {node : ℕ → Option Node} {k : List Instr} (h : Ok node pid pr)
    (hcode : pr.code = .wait :: k) : Ok node pid (pr.setCode k) := by
  cases h with
  | plain hplain h =>
    rw [hcode] at hplain
    cases hplain with
    | listWait right => exact .plain (.run right) h
    | pipeWait => exact .plain .pipeWait2 h
    | pipeWait2 => exact .plain .exit h
  | gone hgone h => simp [hcode] at hgone
  | opening fd hopen ho h => simp [hcode] at hopen
  | making hnode hpid hp ho h | entering hnode hin hp ho h =>
    rw [hcode] at h
    cases h

structure Inv (s : State) : Prop where
  procs : ∀ pid pr, s.procs pid = some pr → Ok s.node pid pr
  fresh : ∀ n, s.nextPipe ≤ n → s.node n = none

theorem inv_start (files : ℕ → ℕ) (cmd : Cmd) : Inv (State.start files cmd) where
  procs pid pr h := by
    simp only [State.start] at h
    split at h
    · cases h
      refine .plain (.run cmd) ⟨fun k => ?_, fun k n sd hk => ?_⟩
      · by_cases hk : k < 3 <;> simp [hk]
      · dsimp only at hk
        split at hk
        · cases sd <;> simp at hk
        · cases hk
    · cases h
  fresh _ _ := rfl

theorem inv_stepped (h : Inv s) (ht : Stepped s pid t) : Inv t := by
  cases ht with
  | move hok =>
    refine ⟨fun q pr hq => ?_, h.fresh⟩
    obtain rfl | hqp := eq_or_ne q pid
    · rw [State.setProc_procs, update_self] at hq
      cases hq
      exact hok
    · rw [State.setProc_procs, update_of_ne hqp] at hq
      exact h.procs q pr hq
  | pipe hok =>
    refine ⟨fun q pr hq => ?_, fun n hn => ?_⟩
    · obtain rfl | hqp := eq_or_ne q pid
      · rw [State.setProc_procs, update_self] at hq
        cases hq
        exact hok
      rw [State.setProc_procs, update_of_ne hqp] at hq
      refine (h.procs q pr hq).mono fun n nd hn => ?_
      have hne : n ≠ s.nextPipe := by
        rintro rfl
        rw [h.fresh _ le_rfl] at hn
        cases hn
      exact (update_of_ne hne ..).trans hn
    · dsimp only at hn
      exact (update_of_ne (by omega) ..).trans (h.fresh n (by omega))
  | fork hok hch =>
    refine ⟨fun q pr hq => ?_, h.fresh⟩
    simp only [State.setProc_procs] at hq
    obtain rfl | hqn := eq_or_ne q s.nextPid
    · rw [update_self] at hq
      cases hq
      exact hch
    rw [update_of_ne hqn] at hq
    obtain rfl | hqp := eq_or_ne q pid
    · rw [update_self] at hq
      cases hq
      exact hok
    · rw [update_of_ne hqp] at hq
      exact h.procs q pr hq

theorem inv_next (h : Inv s) {a : Act} (ht : s.next a = some t) : Inv t := by
  cases a with
  | step pid =>
    obtain ⟨pr, hpr, ht⟩ := Option.bind_eq_some_iff.mp ht
    exact inv_stepped h (step_ok (h.procs pid pr hpr) ht)
  | wait pid child =>
    unfold State.next at ht
    dsimp only at ht
    split at ht
    next pr ch hpr hch =>
      split at ht
      next k hcode =>
        obtain ⟨-, ht⟩ := Option.ite_none_right_eq_some.mp ht
        cases ht
        refine ⟨fun q pr' hq => ?_, h.fresh⟩
        dsimp only at hq
        obtain rfl | hqc := eq_or_ne q child
        · rw [update_self] at hq
          cases hq
        rw [update_of_ne hqc] at hq
        obtain rfl | hqp := eq_or_ne q pid
        · rw [update_self] at hq
          cases hq
          exact wait_ok (h.procs q pr hpr) hcode
        · rw [update_of_ne hqp] at hq
          exact h.procs q pr' hq
      next => cases ht
    next => cases ht

theorem run_inv {files : ℕ → ℕ} {as : List Act}
    (hr : run State.next (State.start files cmd) as = some s) : Inv s :=
  run_invariant (fun _ _ _ h ht => inv_next h ht) (inv_start files cmd) hr

theorem both_holds (h : nd.both n k = some f) :
    (∃ sd : Side, f = sd.file n) ∨ nd.fds k = some f := by
  obtain rfl | h4 := eq_or_ne k 4
  · rw [both_four] at h
    exact .inl ⟨.left, (Option.some.inj h).symm⟩
  obtain rfl | h3 := eq_or_ne k 3
  · rw [both_three] at h
    exact .inl ⟨.right, (Option.some.inj h).symm⟩
  · exact .inr (by simpa [Node.both, h3, h4] using h)

theorem of_update {g : Table} {x : Option File}
    (h : Function.update g fd x k = some f) : x = some f ∨ g k = some f := by
  obtain rfl | hk := eq_or_ne k fd
  · rw [update_self] at h
    exact .inl h
  · rw [update_of_ne hk] at h
    exact .inr h

theorem Making.holds (h : Making nd n code fds)
    (hk : fds k = some f) : (∃ sd : Side, f = sd.file n) ∨ nd.fds k = some f := by
  cases h with
  | close1 =>
    rcases of_update hk with hx | hx
    · cases hx
    · exact both_holds hx
  | _ => exact both_holds hk

theorem Entering.holds (h : Entering nd n sd code fds)
    (hk : fds k = some f) : (∃ sd : Side, f = sd.file n) ∨ nd.fds k = some f := by
  cases h with
  | close => exact both_holds hk
  | dup =>
    rcases of_update hk with hx | hx
    · cases hx
    · exact both_holds hx
  | close0 =>
    rcases of_update hk with hx | hx
    · exact .inl ⟨sd, (Option.some.inj hx).symm⟩
    · exact both_holds hx
  | close1 =>
    rcases of_update hk with hx | hx
    · cases hx
    · rcases of_update hx with hx | hx
      · exact .inl ⟨sd, (Option.some.inj hx).symm⟩
      · exact both_holds hx

theorem Making.not_waiting (h : Making nd n code fds) : ¬ code <:+ [.wait, .wait, .exit] := by
  intro hs
  have hlen := hs.length_le
  cases h <;> simp at hlen

theorem Entering.suffix (h : Entering nd n sd code fds) :
    [.close .p1, .run (nd.sub sd)] <:+ code := by
  cases h with
  | close => exact ⟨[.close (.lit sd.fd), .dup sd.arg, .close .p0], rfl⟩
  | dup => exact ⟨[.dup sd.arg, .close .p0], rfl⟩
  | close0 => exact ⟨[.close .p0], rfl⟩
  | close1 => exact ⟨[], rfl⟩

/-- An end of a pipe on the wrong side is on the way to being closed. -/
theorem Inv.side_of_file (h : Inv s) (hn : s.node n = some nd)
    (hwait : ∀ pr, s.procs nd.pid = some pr → pr.code <:+ [.wait, .wait, .exit])
    (hin : ∀ pid pr sd, s.procs pid = some pr → pr.inside.head? = some (n, sd) →
      ∀ cmd, ¬ [.close .p1, .run cmd] <:+ pr.code)
    (hpr : s.procs pid = some pr) (hfd : pr.fds fd = some (sd.file n)) :
    (n, sd) ∈ pr.inside := by
  cases h.procs pid pr hpr with
  | plain hcode hclean => exact hclean.side fd n sd hfd
  | gone hcode hnone =>
    rw [hnone] at hfd
    cases hfd
  | opening fd' hcode ho hfds =>
    rw [hfds] at hfd
    rcases of_update hfd with hx | hx
    · cases hx
    · exact ho.side fd n sd hx
  | making hnode hpid hp ho hmake =>
    rcases hmake.holds hfd with ⟨sd', hx⟩ | hx
    · obtain ⟨rfl, -⟩ := Side.file_inj hx
      rw [hn] at hnode
      cases hnode
      exact absurd (hwait pr (hpid ▸ hpr)) hmake.not_waiting
    · exact ho.side fd n sd hx
  | entering hnode hhead hp ho hent =>
    rcases hent.holds hfd with ⟨sd', hx⟩ | hx
    · obtain ⟨rfl, -⟩ := Side.file_inj hx
      exact absurd hent.suffix (hin pid pr _ hpr (by rw [hhead]; rfl) _)
    · rw [hhead]
      exact List.mem_cons_of_mem _ (ho.side fd n sd hx)

theorem Inv.exec_clean (h : Inv s) (hpr : s.procs pid = some pr) {argv : List Word} {k : List Instr}
    (hcode : pr.code = .exec argv :: k) : Clean pr.fds pr.inside := by
  cases h.procs pid pr hpr with
  | plain _ hclean => exact hclean
  | gone hgone _ => simp [hcode] at hgone
  | opening _ hopen _ _ => simp [hcode] at hopen
  | making _ _ _ _ hmake =>
    rw [hcode] at hmake
    cases hmake
  | entering _ _ _ _ hent =>
    rw [hcode] at hent
    cases hent

theorem Inv.enter (h : Inv s) (hpr : s.procs pid = some pr)
    (hcode : pr.code = [.close .p1, .run cmd]) (ht : s.next (.step pid) = some t) :
    ∃ n sd nd pr', pr.inside.head? = some (n, sd) ∧ s.node n = some nd ∧ cmd = nd.sub sd ∧
      t.procs pid = some pr' ∧ pr'.code = [.run cmd] ∧
      pr'.fds = Function.update nd.fds sd.fd (some (sd.file n)) := by
  rw [State.next, hpr, Option.bind_some, State.step, hcode] at ht
  cases ht
  cases h.procs pid pr hpr with
  | plain hplain _ =>
    rw [hcode] at hplain
    cases hplain
  | gone hgone _ => simp [hcode] at hgone
  | opening _ hopen _ _ => simp [hcode] at hopen
  | making _ _ _ _ hmake =>
    rw [hcode] at hmake
    cases hmake
  | @entering nd sd rest hnode hhead hp ho hent =>
    generalize hf : pr.fds = fds at hent
    rw [hcode] at hent
    cases hent with
    | close1 =>
      refine ⟨pr.made, sd, nd, _, by rw [hhead]; rfl, hnode, rfl, update_self .., rfl, ?_⟩
      rw [Proc.setCode_fds, Proc.setFds_fds, Proc.fd, hp, entered ho]

/-- The descriptors in every state of every interleaving. At an `exec` the open descriptors are 0,
1 and 2. A side of a pipe begins with its end of the pipe in the place of 1 or 0 and otherwise with
the descriptors that there were at the pipe. When the process of the pipe has come to its first
`wait` and its children have begun their commands, an end is held only inside of its side. -/
theorem runcmd_wiring {files : ℕ → ℕ} {cmd : Cmd} {as : List Act}
    (hr : run State.next (State.start files cmd) as = some s) :
    (∀ pid pr argv k, s.procs pid = some pr → pr.code = .exec argv :: k →
      ∀ fd, (pr.fds fd).isSome ↔ fd < 3) ∧
    (∀ pid pr c t, s.procs pid = some pr → pr.code = [.close .p1, .run c] →
      s.next (.step pid) = some t →
      ∃ n sd nd pr', pr.inside.head? = some (n, sd) ∧ s.node n = some nd ∧ c = nd.sub sd ∧
        t.procs pid = some pr' ∧ pr'.code = [.run c] ∧
        pr'.fds = Function.update nd.fds sd.fd (some (sd.file n))) ∧
    ∀ n nd, s.node n = some nd →
      (∀ pr, s.procs nd.pid = some pr → pr.code <:+ [.wait, .wait, .exit]) →
      (∀ pid pr sd, s.procs pid = some pr → pr.inside.head? = some (n, sd) →
        ∀ c, ¬ [.close .p1, .run c] <:+ pr.code) →
      ∀ pid pr fd sd, s.procs pid = some pr → pr.fds fd = some (sd.file n) →
        (n, sd) ∈ pr.inside := by
  have h := run_inv hr
  refine ⟨fun pid pr argv k hpr hcode => (h.exec_clean hpr hcode).isSome_iff,
    fun pid pr c t hpr hcode ht => h.enter hpr hcode ht, ?_⟩
  intro n nd hn hwait hin pid pr fd sd hpr hfd
  exact h.side_of_file hn hwait hin hpr hfd

def twoSides : List Act :=
  List.replicate 6 (.step 1) ++ List.replicate 5 (.step 2) ++ List.replicate 5 (.step 3)

theorem runcmd_wiring_twoSides :
    ∃ s, run State.next (State.start id (.pipe (.exec [[97]]) (.exec [[98]]))) twoSides = some s ∧
      ∃ pr, s.procs 2 = some pr ∧ pr.code = [.exec [[97]]] ∧ pr.fds 1 = some (.writeEnd 0) ∧
        ∀ fd, (pr.fds fd).isSome ↔ fd < 3 := by
  have h : ∃ s ∈ run State.next (State.start id (.pipe (.exec [[97]]) (.exec [[98]]))) twoSides,
      ∃ pr ∈ s.procs 2, pr.code = [.exec [[97]]] ∧ pr.fds 1 = some (.writeEnd 0) := by
    decide +kernel
  obtain ⟨s, hs, pr, hpr, hcode, hfd⟩ := h
  exact ⟨s, hs, pr, hpr, hcode, hfd, (runcmd_wiring hs).1 2 pr _ _ hpr hcode⟩

/-- The process of the pipe is at its first `wait`, and the child on the right still has the end for
writing. -/
theorem writeEnd_on_right :
    ∃ s ∈ run State.next (State.start id (.pipe (.exec [[97]]) (.exec [[98]])))
        (List.replicate 6 (.step 1)),
      (∃ pr ∈ s.procs 1, pr.code = [.wait, .wait, .exit]) ∧
        ∃ pr ∈ s.procs 3, pr.inside = [(0, .right)] ∧ pr.fds 4 = some (.writeEnd 0) := by
  decide +kernel

end Xv6.Sh
