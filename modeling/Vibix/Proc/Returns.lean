import Vibix.Proc.Dispatch
import Vibix.Proc.Safe

/-! # System calls that panic

`process(pid)` panics if there is no such process, and an index panics if it is out of bounds.  The
handlers of system calls look for the current process, which is always there, and for the PIDs, the
descriptors and the paths in their arguments.

`handler_served` goes through `SYSCALL_TABLE`: a handler returns, with a state that one of the calls
of `Vibix.Proc.Call` leads to, unless it is a `kill` of a PID that names no process, which panics,
or a `nanosleep` that has to wait.  `syscall_no_panic_iff` is the result for all states after boot.
-/

namespace Vibix.Proc

open Vfs

/-- The kernel gets to the end of a function. -/
def Returns {α : Type*} (x : Except Halt α) : Prop := ∃ a, x = .ok a

theorem Returns.ok {α : Type*} (a : α) : Returns (.ok a : Except Halt α) := ⟨a, rfl⟩

@[simp] theorem not_returns_error {α : Type*} (halt : Halt) :
    ¬ Returns (.error halt : Except Halt α) := nofun

@[simp] theorem returns_map {α β : Type*} {f : α → β} {x : Except Halt α} :
    Returns (x.map f) ↔ Returns x := by
  cases x with
  | error halt => simp [Except.map]
  | ok a => exact ⟨fun _ => .ok a, fun _ => ⟨f a, rfl⟩⟩

/-- A process has the PID. -/
def System.Names (s : System) (pid : ℕ) : Prop := ∃ i q, s.table.slots i = some q ∧ q.pid = pid

/-- A `kill` that is accepted, of a PID that names no process. -/
def KillsNobody (pid sig : ℕ) (s : System) : Prop :=
  ¬ (pid = 0 ∨ sig = 0 ∨ 32 ≤ sig) ∧ pid ≠ 2 ∧ ¬ s.Names pid

section Calls

variable {s : System}

theorem find_eq_none_iff {pid : ℕ} : s.table.find pid = none ↔ ¬ s.Names pid := by
  constructor
  · rintro h ⟨i, q, hi, hpid⟩
    exact ProcessTable.find_none h hi hpid
  · intro h
    cases hfind : s.table.find pid with
    | none => rfl
    | some r =>
      obtain ⟨hi, hpid⟩ := ProcessTable.find_some hfind
      exact absurd ⟨r.1, r.2, hi, hpid⟩ h

theorem sysKill_returns_iff {pid sig : ℕ} :
    Returns (sysKill pid sig s) ↔ ¬ KillsNobody pid sig s := by
  unfold sysKill KillsNobody
  split_ifs with hargs h2
  · simp [Returns.ok, hargs]
  · simp [Returns.ok, h2]
  · rw [← find_eq_none_iff]
    cases hfind : s.table.find pid with
    | none => simp [hargs, h2]
    | some r =>
      simp only [reduceCtorEq, not_false_eq_true, and_false, iff_true]
      split_ifs <;> exact .ok _

theorem sysExit_returns (hs : SysOk s) (code : ℕ) : Returns (sysExit code s) := by
  obtain ⟨i, q, hcur, -⟩ := hs.current
  unfold sysExit
  split
  next hnone =>
    rw [System.current, markZombie_none hnone] at hcur
    cases hcur
  next => exact .ok _

theorem sysWaitpid_returns (hs : SysOk s) (requested flags : ℕ) :
    Returns (sysWaitpid requested flags s) := by
  obtain ⟨i, q, hcur, -⟩ := hs.current
  unfold sysWaitpid
  split
  next => exact .ok _
  next child hchild =>
    split_ifs
    · obtain ⟨j, -, hj⟩ := List.exists_of_findSome?_eq_some hchild
      obtain ⟨child', hslot, hif⟩ := Option.bind_eq_some_iff.mp hj
      rw [Option.ite_none_right_eq_some] at hif
      cases hif.2
      obtain ⟨r, hfind⟩ := ProcessTable.exists_find hslot rfl
      rw [hfind]
      exact .ok _
    · exact .ok _
    · rw [hcur]
      exact .ok _

theorem sysFork_returns (hs : SysOk s) (memory : ForkMemory) : Returns (sysFork memory s) := by
  obtain ⟨i, q, hcur, -⟩ := hs.current
  cases memory with
  | noStack => exact .ok _
  | noRoot => exact .ok _
  | built base root =>
    simp only [sysFork, addChild, hcur]
    cases (List.finRange 64).find? fun i => (s.table.slots i).isNone <;> exact .ok _

theorem ttyRead_returns (hs : SysOk s) (len : ℕ) (input : List (BitVec 8)) :
    Returns (ttyRead len input s) := by
  obtain ⟨i, q, hcur, -⟩ := ((processInput_changes input).steady.ok hs).current
  unfold ttyRead
  dsimp only
  split_ifs
  · exact .ok _
  · exact .ok _
  · rw [hcur]
    exact .ok _

/-- **All calls return** when there is a current process, but for a `kill` of nobody. -/
theorem Call.returns_iff (hs : SysOk s) (call : Call) :
    Returns (call.run s) ↔ ∀ pid sig, call = .kill pid sig → ¬ KillsNobody pid sig s := by
  obtain ⟨i, q, hcur, -⟩ := hs.current
  cases call with
  | kill pid sig =>
    refine sysKill_returns_iff.trans ⟨?_, fun h => h pid sig rfl⟩
    rintro h _ _ ⟨⟩
    exact h
  | openPath resolved openRc flags mode =>
    refine iff_of_true ?_ nofun
    simp only [Call.run, sysOpen, hcur]
    repeat' split
    all_goals exact .ok _
  | close fd =>
    refine iff_of_true ?_ nofun
    simp only [Call.run, sysClose, hcur]
    repeat' split
    all_goals exact .ok _
  | dup oldFd =>
    refine iff_of_true ?_ nofun
    simp only [Call.run, sysDup, hcur]
    repeat' split
    all_goals exact .ok _
  | dup2 oldFd newFd =>
    refine iff_of_true ?_ nofun
    simp only [Call.run, sysDup2, hcur]
    repeat' split
    all_goals exact .ok _
  | pipe blocks pipefd =>
    refine iff_of_true ?_ nofun
    simp only [Call.run, sysPipe, hcur]
    repeat' split
    all_goals exact .ok _
  | fork memory => exact iff_of_true (sysFork_returns hs memory) nofun
  | exec built =>
    refine iff_of_true ?_ nofun
    simp only [Call.run, sysExec, hcur]
    split <;> exact .ok _
  | exit code => exact iff_of_true (returns_map.mpr (sysExit_returns hs code)) nofun
  | waitpid requested flags =>
    exact iff_of_true (returns_map.mpr (sysWaitpid_returns hs requested flags)) nofun
  | sigaction signum act =>
    refine iff_of_true ?_ nofun
    simp only [Call.run, sysSigaction, hcur]
    repeat' split
    all_goals exact .ok _
  | sigreturn mask =>
    refine iff_of_true ?_ nofun
    simp only [Call.run, sysSigreturn, hcur]
    split_ifs <;> exact .ok _
  | ttyRead len input => exact iff_of_true (ttyRead_returns hs len input) nofun
  | transfer idx offset rc => exact iff_of_true (.ok _) nofun
  | setBreak brk errno rc =>
    refine iff_of_true (returns_map.mpr ?_) nofun
    simp only [Proc.setBreak, hcur]
    exact .ok _
  | other rc => exact iff_of_true (.ok _) nofun

end Calls

/-! ### Handlers -/

/-- A handler returns; its effect is that of a call, and the working directory is one still. -/
def Served (c : Caller) (x : Except Halt Reply) : Prop :=
  ∃ r, x = .ok r ∧ (∃ (call : Call) (rc : ℤ), call.run c.sys = .ok (r.sys, rc)) ∧ IsCwd r.cwd

section Handlers

variable {c : Caller}

theorem served_reply (hcwd : IsCwd c.cwd) (rc : ℤ) (stores : List Store) :
    Served c (.ok { c.reply rc with stores := stores }) :=
  ⟨_, rfl, ⟨.other rc, rc, rfl⟩, hcwd⟩

theorem served_call (hs : SysOk c.sys) (hcwd : IsCwd c.cwd) (call : Call) (stores : List Store)
    (hkill : ∀ pid sig, call = .kill pid sig → ¬ KillsNobody pid sig c.sys) :
    Served c (c.call call stores) := by
  obtain ⟨⟨s, rc⟩, hrun⟩ := (Call.returns_iff hs call).mpr hkill
  exact ⟨⟨s, c.cwd, rc, stores⟩, by rw [Caller.call, hrun]; rfl, ⟨call, rc, hrun⟩, hcwd⟩

theorem Served.map {x : Except Halt Reply} (h : Served c x) {f : Reply → Reply}
    (hsys : ∀ r, (f r).sys = r.sys) (hcwd : ∀ r, (f r).cwd = r.cwd) : Served c (x.map f) := by
  obtain ⟨r, rfl, ⟨call, rc, hrun⟩, hr⟩ := h
  exact ⟨f r, rfl, ⟨call, rc, (hsys r).symm ▸ hrun⟩, (hcwd r).symm ▸ hr⟩

theorem onFile_served (hs : SysOk c.sys) (hcwd : IsCwd c.cwd) (fd : ℕ) (bad : ℤ)
    (refused : Option ℤ) {op : ℕ → OpenFile → Except Halt Reply}
    (hop : ∀ idx file, Served c (op idx file)) :
    Served c (c.onFile fd bad refused op) := by
  obtain ⟨i, q, hcur, -⟩ := hs.current
  unfold Caller.onFile
  split_ifs with hfd
  · exact served_reply hcwd bad []
  · simp only [fdEntry, hcur, dif_pos (not_le.mp hfd)]
    cases q.fds ⟨fd, not_le.mp hfd⟩ with
    | none => exact served_reply hcwd bad []
    | some idx =>
      cases refused with
      | some rc => exact served_reply hcwd rc []
      | none =>
        dsimp only
        cases c.sys.oft.get idx with
        | none => exact served_reply hcwd bad []
        | some file => exact hop idx file

theorem readFile_served (hs : SysOk c.sys) (hcwd : IsCwd c.cwd) (env : Env) (missing : ℤ) (buf : ℕ)
    (len : BitVec 64) (idx : ℕ) (file : OpenFile) :
    Served c (c.readFile env missing buf len idx file) := by
  unfold Caller.readFile
  split
  next => exact served_reply hcwd missing []
  next => exact served_call hs hcwd _ _ (by nofun)
  next => exact served_call hs hcwd _ _ (by nofun)

theorem onTty_served (hs : SysOk c.sys) (hcwd : IsCwd c.cwd) (env : Env) (args : SyscallArgs)
    (stores : List Store) : Served c (c.onTty env args stores) := by
  unfold Caller.onTty
  split_ifs
  · exact served_reply hcwd _ []
  · refine onFile_served hs hcwd _ _ _ fun idx file => ?_
    dsimp only
    split_ifs
    · exact served_reply hcwd 0 stores
    · exact served_reply hcwd _ []

/-- A path of the caller is read without leaving the buffer. -/
theorem userPath_returns (env : Env) (path : BitVec 64) : Returns (Caller.userPath env path) := by
  obtain ⟨r, hr, hspec⟩ := cstrFromUser_spec env.user path.toNat
  unfold Caller.userPath
  rw [hr]
  cases r with
  | error e => exact .ok _
  | ok buf =>
    obtain ⟨n, hholds⟩ := hspec buf rfl
    dsimp only
    rw [hholds.path]
    exact .ok _

theorem resolveUser_returns (env : Env) (path : BitVec 64) :
    Returns (Caller.resolveUser env path) := by
  obtain ⟨r, hr⟩ := userPath_returns env path
  unfold Caller.resolveUser
  rw [hr]
  cases r with
  | error e => exact .ok _
  | ok path =>
    dsimp only
    rw [vfsResolveIn_eq]
    exact .ok _

theorem openPath_served (hs : SysOk c.sys) (hcwd : IsCwd c.cwd) (env : Env) (args : SyscallArgs) :
    Served c (c.openPath env args) := by
  obtain ⟨resolved, hr⟩ := resolveUser_returns env args.arg1
  unfold Caller.openPath
  rw [hr]
  exact served_call hs hcwd _ [] (by nofun)

theorem execPath_served (hs : SysOk c.sys) (hcwd : IsCwd c.cwd) (env : Env) (args : SyscallArgs) :
    Served c (c.execPath env args) := by
  obtain ⟨i, q, hcur, -⟩ := hs.current
  obtain ⟨resolved, hr⟩ := resolveUser_returns env args.arg1
  unfold Caller.execPath
  rw [hcur, hr]
  cases resolved with
  | error e => exact served_reply hcwd _ []
  | ok vn =>
    dsimp only
    split_ifs
    · exact served_reply hcwd _ []
    · exact served_call hs hcwd _ [] (by nofun)

theorem sysStat_served (hs : SysOk c.sys) (hcwd : IsCwd c.cwd) (env : Env) (args : SyscallArgs) :
    Served c (c.sysStat env args) := by
  obtain ⟨i, q, hcur, -⟩ := hs.current
  obtain ⟨r, hr⟩ := userPath_returns env args.arg1
  obtain ⟨dir, hdir, hlen⟩ := path_of_terminated hcwd.terminated
  unfold Caller.sysStat
  rw [hr]
  cases r with
  | error e => exact served_reply hcwd _ []
  | ok path =>
    obtain ⟨found, hfound⟩ := vfsResolveRelative_some env.fs hlen path
    simp only [hcur, hdir, Option.bind_some, hfound]
    cases found with
    | error e => exact served_reply hcwd _ []
    | ok vn => exact served_reply hcwd 0 _

theorem sysChdir_served (hs : SysOk c.sys) (hcwd : IsCwd c.cwd) (env : Env) (args : SyscallArgs) :
    Served c (c.sysChdir env args) := by
  obtain ⟨i, q, hcur, -⟩ := hs.current
  obtain ⟨r, hr⟩ := userPath_returns env args.arg1
  unfold Caller.sysChdir
  rw [hr]
  cases r with
  | error e => exact served_reply hcwd _ []
  | ok path =>
    obtain ⟨found, hfound, -⟩ : ∃ r, env.fs.chdirTo c.cwd path = some r ∧ _ :=
      chdirTo_spec hcwd.terminated path
    simp only [hcur, hfound]
    cases found with
    | error e => exact served_reply hcwd _ []
    | ok cwd => exact ⟨_, rfl, ⟨.other 0, 0, rfl⟩, hcwd.chdir hfound⟩

theorem waitpid_served (hs : SysOk c.sys) (hcwd : IsCwd c.cwd) (args : SyscallArgs) :
    Served c (c.waitpid args) := by
  obtain ⟨⟨s, rc, reaped⟩, hrun⟩ := sysWaitpid_returns hs args.arg1.toNat args.arg3.toNat
  unfold Caller.waitpid
  rw [hrun]
  refine ⟨_, rfl, ⟨.waitpid args.arg1.toNat args.arg3.toNat, rc, ?_⟩, hcwd⟩
  rw [Call.run, hrun]
  rfl

theorem pipe_served (hs : SysOk c.sys) (hcwd : IsCwd c.cwd) (env : Env) (args : SyscallArgs) :
    Served c (c.pipe env args) := by
  unfold Caller.pipe
  refine (served_call hs hcwd _ [] (by nofun)).map (fun r => ?_) fun r => ?_
  · split_ifs <;> rfl
  · split_ifs <;> rfl

theorem sigaction_served (hs : SysOk c.sys) (hcwd : IsCwd c.cwd) (env : Env) (args : SyscallArgs) :
    Served c (c.sigaction env args) := by
  unfold Caller.sigaction
  refine (served_call hs hcwd _ [] (by nofun)).map (fun r => ?_) fun r => ?_
  · split_ifs <;> rfl
  · split_ifs <;> rfl

theorem sysNanosleep_served (hcwd : IsCwd c.cwd) (args : SyscallArgs) :
    Served c (c.sysNanosleep args) ∨ c.sysNanosleep args = .error .waiting := by
  unfold Caller.sysNanosleep
  split_ifs
  · exact .inl (served_reply hcwd _ [])
  · exact .inl (served_reply hcwd _ [])
  · exact .inr rfl

theorem kill_served (hs : SysOk c.sys) (hcwd : IsCwd c.cwd) (pid sig : ℕ) :
    Served c (c.call (.kill pid sig) []) ∨
      KillsNobody pid sig c.sys ∧ c.call (.kill pid sig) [] = .error .notFound := by
  by_cases hkill : KillsNobody pid sig c.sys
  · have hnone := find_eq_none_iff.mpr hkill.2.2
    refine .inr ⟨hkill, ?_⟩
    rw [Caller.call, Call.run, sysKill, if_neg hkill.1, if_neg hkill.2.1, hnone]
    rfl
  · refine .inl (served_call hs hcwd _ [] ?_)
    rintro _ _ ⟨⟩
    exact hkill

/-- **The table of handlers**: what each of them returns, or how it does not. -/
theorem handler_served (hs : SysOk c.sys) (hcwd : IsCwd c.cwd) {env : Env} {args : SyscallArgs}
    {n : ℕ} {x : Except Halt Reply} (h : c.handler env args n = some x) :
    Served c x ∨ (n = 5 ∧ x = .error .waiting) ∨
      (n = 28 ∧ KillsNobody args.arg1.toNat args.arg2.toNat c.sys ∧ x = .error .notFound) := by
  have hcall : ∀ call : Call, (∀ pid sig, call ≠ .kill pid sig) → Served c (c.call call []) := by
    intro call hne
    exact served_call hs hcwd call [] fun pid sig heq => absurd heq (hne pid sig)
  have hfile : ∀ fd bad refused {op}, (∀ idx file, Served c (op idx file)) →
      Served c (c.onFile fd bad refused op) := onFile_served hs hcwd
  unfold Caller.handler at h
  split at h <;> cases h
  · exact .inl (hcall _ nofun)
  · refine .inl ?_
    unfold Caller.sysWrite
    split_ifs
    · exact served_reply hcwd 0 []
    · refine hfile _ _ _ fun idx file => ?_
      split <;> exact served_reply hcwd _ []
  · refine .inl ?_
    unfold Caller.sysRead
    split_ifs
    · exact served_reply hcwd _ []
    · exact (hfile _ _ _ (readFile_served hs hcwd env _ _ _)).map (fun _ => rfl) fun _ => rfl
  · exact .inl (served_reply hcwd _ [])
  · exact .inl (hcall _ nofun)
  · exact (sysNanosleep_served hcwd args).imp_right fun h => .inl ⟨rfl, h⟩
  · exact .inl (served_reply hcwd 0 _)
  · refine .inl ?_
    unfold Caller.sysReboot
    split_ifs <;> exact served_reply hcwd _ []
  · exact .inl (hcall _ nofun)
  · exact .inl (execPath_served hs hcwd env args)
  · exact .inl (waitpid_served hs hcwd args)
  · exact .inl (hcall _ nofun)
  · exact .inl (openPath_served hs hcwd env args)
  · exact .inl (hcall _ nofun)
  · exact .inl (hfile _ _ _ (readFile_served hs hcwd env _ _ _))
  · exact .inl (hfile _ _ _ fun _ _ => served_reply hcwd _ [])
  · refine .inl (hfile _ _ _ fun idx file => ?_)
    dsimp only
    split_ifs
    · exact hcall _ nofun
    · exact served_reply hcwd _ []
  · refine .inl (hfile _ _ _ fun idx file => ?_)
    dsimp only
    split
    · exact served_reply hcwd _ []
    · exact served_reply hcwd _ _
  · exact .inl (hcall _ nofun)
  · exact .inl (hcall _ nofun)
  · exact .inl (pipe_served hs hcwd env args)
  · exact .inl (sysStat_served hs hcwd env args)
  · exact .inl (hfile _ _ _ fun _ _ => served_reply hcwd 0 _)
  · exact .inl (sysChdir_served hs hcwd env args)
  · exact .inl (hfile _ _ _ fun _ _ => served_reply hcwd _ [])
  · exact .inl (onTty_served hs hcwd env args _)
  · exact .inl (onTty_served hs hcwd env args [])
  · refine .inl ?_
    obtain ⟨i, q, hcur, -⟩ := hs.current
    unfold Caller.sysGetcwd
    rw [hcur]
    dsimp only
    split_ifs
    · exact served_reply hcwd _ []
    · exact served_reply hcwd _ _
  · exact (kill_served hs hcwd _ _).imp_right fun h => .inr ⟨rfl, h⟩
  · exact .inl (sigaction_served hs hcwd env args)
  · exact .inl (hcall _ nofun)

end Handlers

/-! ### System calls after boot -/

/-- A Rust panic: there is no process with the PID looked for, or an access is out of bounds. -/
def Panics {α : Type*} (x : Except Halt α) : Prop := x = .error .notFound ∨ x = .error .bounds

theorem Served.not_panics {c : Caller} {x : Except Halt Reply} (h : Served c x) : ¬ Panics x := by
  obtain ⟨r, rfl, -⟩ := h
  rintro (h | h) <;> cases h

/-- `check_signals_syscall` does not panic. -/
theorem checkSignals_returns {s : System} (hs : SysOk s) : Returns (checkSignalsSyscall s) := by
  obtain ⟨i, q, hcur, hi, -⟩ := hs.current
  unfold checkSignalsSyscall
  split_ifs
  · exact .ok _
  rw [hcur]
  dsimp only
  split_ifs
  · exact .ok _
  · obtain ⟨s₁, x, hterm⟩ := terminate_ok hs.table hi (clearSignal_only sigKill) [] (128 + sigKill)
    rw [log_nil] at hterm
    rw [hterm]
    exact .ok _
  · exact .ok _
  · split
    next code hout =>
      obtain ⟨s₁, x, hterm⟩ := terminate_ok hs.table hi (scan_only signals) _ code
      rw [hterm]
      exact .ok _
    next => exact .ok _
    next => exact .ok _

section Dispatch

variable {c : Caller} {env : Env} {num : BitVec 64} {args : SyscallArgs}

theorem dispatch_panics_iff (hs : SysOk c.sys) (hcwd : IsCwd c.cwd) :
    Panics (c.dispatch env num args) ↔
      num = 28#64 ∧ KillsNobody args.arg1.toNat args.arg2.toNat c.sys := by
  have hnum : num = 28#64 ↔ num.toNat = 28 := by
    rw [← BitVec.toNat_inj]
    rfl
  rw [hnum]
  unfold Caller.dispatch
  split_ifs with hlt
  · cases hx : c.handler env args num.toNat with
    | none =>
      refine iff_of_false (served_reply hcwd (-1) []).not_panics ?_
      rintro ⟨hn, -⟩
      rw [hn] at hx
      cases hx
    | some x =>
      rw [Option.getD_some]
      rcases handler_served hs hcwd hx with hserved | ⟨hn, rfl⟩ | ⟨hn, hkill, rfl⟩
      · refine iff_of_false hserved.not_panics ?_
        rintro ⟨hn, hkill⟩
        obtain ⟨r, rfl, -⟩ := hserved
        rw [hn] at hx
        have hret : Returns (c.call (.kill args.arg1.toNat args.arg2.toNat) []) :=
          ⟨r, Option.some.inj hx⟩
        exact sysKill_returns_iff.mp (returns_map.mp hret) hkill
      · refine iff_of_false ?_ ?_
        · rintro (h | h) <;> cases h
        · rintro ⟨h28, -⟩
          omega
      · exact iff_of_true (.inl rfl) ⟨hn, hkill⟩
  · refine iff_of_false (served_reply hcwd (-1) []).not_panics ?_
    rintro ⟨hn, -⟩
    exact hlt (hn ▸ by decide)

theorem names_iff {s s' : System} (h : Steady s s') {pid : ℕ} : s'.Names pid ↔ s.Names pid := by
  constructor
  · rintro ⟨i, q', hi, hpid⟩
    obtain ⟨q, hq, hm⟩ := h.backward hi
    exact ⟨i, q, hq, hm.pid.symm.trans hpid⟩
  · rintro ⟨i, q, hi, hpid⟩
    obtain ⟨q', hq', hm⟩ := h.forward hi
    exact ⟨i, q', hq', hm.pid.trans hpid⟩

/-- **A system call panics** iff it is a `kill` of a PID that names no process, and no signal takes
the place of the call. -/
theorem syscallHandler_panics_iff (hs : SysOk c.sys) (hcwd : IsCwd c.cwd) :
    Panics (c.syscallHandler env num args) ↔
      (num = 28#64 ∧ KillsNobody args.arg1.toNat args.arg2.toNat c.sys) ∧
        ∃ s x, checkSignalsSyscall c.sys = .ok (s, .none, x) := by
  obtain ⟨⟨s, res, x⟩, hcheck⟩ := checkSignals_returns hs
  unfold Caller.syscallHandler
  rw [hcheck]
  cases res with
  | none =>
    rcases checkSignals_cases hcheck with ⟨-, hch, -, -⟩ | ⟨hres, -⟩
    · have hiff : Panics (Caller.dispatch env ⟨s, c.cwd⟩ num args) ↔
          num = 28#64 ∧ KillsNobody args.arg1.toNat args.arg2.toNat s :=
        dispatch_panics_iff (hch.steady.ok hs) hcwd
      refine hiff.trans ?_
      simp only [KillsNobody, names_iff hch.steady]
      simp
    · cases hres
  | terminated =>
    refine iff_of_false ?_ ?_
    · rintro (h | h) <;> cases h
    · rintro ⟨-, s', x', h⟩
      cases h
  | customPending =>
    refine iff_of_false ?_ ?_
    · rintro (h | h) <;> cases h
    · rintro ⟨-, s', x', h⟩
      cases h

/-- **No system call panics**, in any state after boot, whatever its number and its arguments are,
but for a `kill` of a PID that names no process. -/
theorem syscall_no_panic_iff (b : BootImage) (ttyVnode : Vnode) {es : List Event} {s : System}
    (hrun : Run Step (startScheduler (spawnInit b ttyVnode)) es s)
    (hpids : es.countP Event.handsOut < 2 ^ 64 - 3) {cwd : PathBuf} (hcwd : IsCwd cwd)
    (saved : SyscallSavedState) (env : Env) (num : BitVec 64) (args : SyscallArgs) :
    ¬ Panics (Caller.syscallHandler env ⟨{ s with syscallState := saved }, cwd⟩ num args) ↔
      ¬ ((num = 28#64 ∧ KillsNobody args.arg1.toNat args.arg2.toNat s) ∧
        ∃ s' x, checkSignalsSyscall { s with syscallState := saved } = .ok (s', .none, x)) := by
  obtain ⟨hok, -⟩ := boot_run_ok b ttyVnode hrun hpids
  have hok' : SysOk { s with syscallState := saved } := ⟨hok.table, hok.runs, hok.only⟩
  exact not_congr (syscallHandler_panics_iff hok' hcwd)

/-- A call with a PID that names nobody, but not `kill`. -/
theorem syscall_no_panic_iff_waitpid : IsCwd rootCwd ∧ ∀ env,
    ¬ Panics (Caller.syscallHandler env
      ⟨startScheduler (spawnInit ⟨⟨0, 0, 0x3000, 0⟩, 0, 0, 0, 0⟩ ⟨0, none, true⟩), rootCwd⟩ 10#64
      ⟨5#64, 0#64, 0#64, 0#64⟩) := by
  refine ⟨.root, fun env => ?_⟩
  refine (syscall_no_panic_iff ⟨⟨0, 0, 0x3000, 0⟩, 0, 0, 0, 0⟩ ⟨0, none, true⟩ (.nil _) (by decide)
    .root _ env 10#64 ⟨5#64, 0#64, 0#64, 0#64⟩).mpr ?_
  rintro ⟨⟨h, -⟩, -⟩
  exact absurd h (by decide)

/-- Init sends `SIGUSR1` to process 5, which does not exist. -/
theorem kill_panics : IsCwd rootCwd ∧ ∀ env,
    Caller.syscallHandler env
      ⟨startScheduler (spawnInit ⟨⟨0, 0, 0x3000, 0⟩, 0, 0, 0, 0⟩ ⟨0, none, true⟩), rootCwd⟩ 28#64
      ⟨5#64, 10#64, 0#64, 0#64⟩ = .error .notFound := by
  refine ⟨.root, fun env => ?_⟩
  rfl

end Dispatch

end Vibix.Proc
