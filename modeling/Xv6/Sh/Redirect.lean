import Xv6.Sh.RoundTrip
import Xv6.Sh.Wiring

/-! The descriptors with which a command runs inside its redirections. -/
namespace Xv6.Sh
open Transition Function
variable {s t : State} {pr : Proc} {pid : ℕ} {c : Cmd} {rs : List Redir} {fds : Table}

/-- The tokens of a simple command or a block, with the command inside and its redirections from
left to right. -/
inductive Single : List Tok → Cmd → List Redir → Prop where
  | args {ts us : List Tok} {ws : List Word} {rs qs : List Redir} (hr : Redirs ts rs)
      (h : Args us ws qs) (hn : ws.length < maxargs) : Single (ts ++ us) (.exec ws) (rs ++ qs)
  | block {ts us : List Tok} {c : Cmd} {rs : List Redir} (h : Derives .line ts c)
      (hr : Redirs us rs) : Single (.lparen :: (ts ++ .rparen :: us)) c rs

theorem Single.derives {ts : List Tok} (h : Single ts c rs) : Derives .exec ts (wrap c rs) := by
  cases h with
  | args hr h hn => exact .args hr h hn
  | block h hr => exact .block h hr

/-- The redirections that apply to descriptor `k`. -/
def onFd (rs : List Redir) (k : ℕ) : List Redir := rs.filter fun r => decide (r.fd.val = k)

/-- Descriptor `k` when the redirection `r`, if there is one, decides. -/
def redirected (fds : Table) (k : ℕ) (r : Option Redir) : Option File :=
  match r with
  | some r => some (.opened r.file r.mode)
  | none => fds k

theorem wrap_concat (c : Cmd) (rs : List Redir) (r : Redir) :
    wrap c (rs ++ [r]) = .redir (wrap c rs) r.file r.mode r.fd := List.foldl_append ..

theorem step_redir {r : Redir} {cmd : Cmd} (hpr : s.procs pid = some pr)
    (hcode : pr.code = [.run (.redir cmd r.file r.mode r.fd)]) (hfds : ∀ k < 3, pr.fds k ≠ none) :
    (run State.next s (List.replicate 3 (.step pid))).bind (·.procs pid) = some
      ((pr.setFds (Function.update pr.fds r.fd (some (.opened r.file r.mode)))).setCode
        [.run cmd]) := by
  have halloc : fdalloc (Function.update pr.fds r.fd none) (.opened r.file r.mode) =
      some (r.fd.val, Function.update pr.fds r.fd (some (.opened r.file r.mode))) := by
    have hlt := r.fd.isLt
    have hnofile : (r.fd : ℕ) < nofile := hlt.trans (by decide)
    rw [fdalloc_eq hnofile (update_self ..) fun k hk => ?_, update_idem]
    rw [update_of_ne (Nat.ne_of_lt hk)]
    exact hfds k (hk.trans hlt)
  simp only [List.replicate, run, State.next, hpr, Option.bind_some, State.step, hcode, runcmd,
    State.setProc_procs, update_self, Proc.setCode_code, Proc.setCode_fds,
    Proc.setFds_fds, Proc.fd, halloc]
  rfl

theorem run_wrap (rs : List Redir) : ∀ {s : State} {pr : Proc}, s.procs pid = some pr →
    pr.code = [.run (wrap c rs)] → (∀ k < 3, pr.fds k ≠ none) →
    ∃ t pr', run State.next s (List.replicate (3 * rs.length) (.step pid)) = some t ∧
      t.procs pid = some pr' ∧ pr'.code = [.run c] ∧
      ∀ k, pr'.fds k = redirected pr.fds k (onFd rs k).head? := by
  induction rs using List.reverseRecOn with
  | nil => exact fun {s pr} hpr hcode _ => ⟨s, pr, rfl, hpr, hcode, fun _ => rfl⟩
  | append_singleton rs r ih =>
    intro s pr hpr hcode hfds
    rw [wrap_concat] at hcode
    obtain ⟨u, hu, hpu⟩ := Option.bind_eq_some_iff.mp (step_redir hpr hcode hfds)
    have hopen : ∀ k < 3,
        Function.update pr.fds r.fd (some (.opened r.file r.mode)) k ≠ none := by
      intro k hk
      by_cases hkr : k = r.fd
      · rw [hkr, update_self]
        exact Option.some_ne_none _
      · rw [update_of_ne hkr]
        exact hfds k hk
    obtain ⟨t, pr', ht, hpt, hcode', hfds'⟩ := ih hpu rfl hopen
    refine ⟨t, pr', ?_, hpt, hcode', fun k => ?_⟩
    · rw [List.length_append, List.length_singleton, Nat.mul_add, Nat.add_comm, List.replicate_add]
      exact run_append_eq_some.mpr ⟨u, hu, ht⟩
    · rw [hfds', onFd, onFd, List.filter_append, List.head?_append]
      cases (rs.filter fun r => decide (r.fd.val = k)).head? with
      | some r' => rfl
      | none =>
        by_cases hk : (r.fd : ℕ) = k
        · simp [hk, redirected]
        · simp [hk, redirected, update_of_ne (Ne.symm hk)]

/-- The first and the last redirection of descriptor `k` name the same file and mode. -/
def Agree (rs : List Redir) (k : ℕ) : Prop :=
  (onFd rs k).head?.map (fun r => (r.file, r.mode)) =
    (onFd rs k).getLast?.map fun r => (r.file, r.mode)

theorem redirected_eq_iff (fds : Table) (rs : List Redir) (k : ℕ) :
    redirected fds k (onFd rs k).head? = redirected fds k (onFd rs k).getLast? ↔ Agree rs k := by
  unfold Agree
  cases hrs : onFd rs k with
  | nil => simp
  | cons r rest =>
    obtain ⟨r', hr'⟩ := Option.isSome_iff_exists.mp
      (List.getLast?_isSome.mpr (List.cons_ne_nil r rest))
    rw [hr', List.head?_cons]
    simp [redirected]

/-- The command runs with each descriptor as its last redirection says exactly when the first one
says the same, and without redirections as it was. -/
theorem redirections_apply {ts : List Tok} (h : Single ts c rs) :
    (∀ line fuel, 0 ∉ line → Lexes line ts → 4 * line.length + 4 ≤ fuel →
      parsecmd fuel line = .ok (wrap c rs)) ∧
    ∀ (s : State) (pid : ℕ) (pr : Proc), s.procs pid = some pr → pr.code = [.run (wrap c rs)] →
      (∀ k < 3, pr.fds k ≠ none) →
      ∃ t pr', run State.next s (List.replicate (3 * rs.length) (.step pid)) = some t ∧
        t.procs pid = some pr' ∧ pr'.code = [.run c] ∧
        ∀ k, pr'.fds k = redirected pr.fds k (onFd rs k).getLast? ↔ Agree rs k := by
  refine ⟨fun line fuel h0 hl hf => parsecmd_of_derives h0 hl h.derives.line hf, ?_⟩
  intro s pid pr hpr hcode hfds
  obtain ⟨t, pr', ht, hpt, hcode', hfds'⟩ := run_wrap rs hpr hcode hfds
  refine ⟨t, pr', ht, hpt, hcode', fun k => ?_⟩
  rw [hfds', redirected_eq_iff]

theorem redirections_apply_two : ∃ t pr', run State.next
      (State.start id (wrap (.exec [[120]]) [⟨[97], 0x000, 0⟩, ⟨[98], 0x601, 1⟩]))
      (List.replicate 6 (.step 1)) = some t ∧ t.procs 1 = some pr' ∧
      pr'.code = [.run (.exec [[120]])] ∧ pr'.fds 0 = some (.opened [97] 0x000) ∧
      pr'.fds 1 = some (.opened [98] 0x601) := by
  have hargs : Args [.word [120], .lt, .word [97], .gt, .word [98]] [[120]]
      [⟨[97], 0x000, 0⟩, ⟨[98], 0x601, 1⟩] := .cons (.cons rfl (.cons rfl .nil)) .nil
  obtain ⟨t, pr', ht, hpt, hcode, hfds⟩ := (redirections_apply (.args .nil hargs (by decide))).2
    (State.start id _) 1 _ rfl rfl (by decide)
  exact ⟨t, pr', ht, hpt, hcode, (hfds 0).mpr rfl, (hfds 1).mpr rfl⟩

/-- For `x>a>b` the command runs with the first file, not with the last. -/
theorem first_redirection_wins : parsecmd 24 [120, 62, 97, 62, 98] =
      .ok (wrap (.exec [[120]]) [⟨[97], 0x601, 1⟩, ⟨[98], 0x601, 1⟩]) ∧
    (run State.next
      (State.start id (wrap (.exec [[120]]) [⟨[97], 0x601, 1⟩, ⟨[98], 0x601, 1⟩]))
      (List.replicate 6 (.step 1))).bind (fun t => (t.procs 1).map fun pr => (pr.code, pr.fds 1)) =
      some ([.run (.exec [[120]])], some (.opened [97] 0x601)) := by
  constructor <;> decide +kernel

end Xv6.Sh
