import Vibix.Proc.Dispatch

/-! # What system calls store

A handler stores its results at addresses that the caller has put in registers.  `outputs` is the
table of these addresses, as the manual has it: the number of the call, the arguments and the number
of bytes determine which parts of memory are written.  `syscallHandler_fills` says that the handlers
write there, and nowhere else. -/

namespace Vibix.Proc

open Vfs

/-- The addresses in a list of parts of memory, each with its start and its length. -/
def covered (l : List (ℕ × ℕ)) : Set ℕ := {a | ∃ b ∈ l, b.1 ≤ a ∧ a < b.1 + b.2}

/-- The addresses that a handler stores to. -/
def Reply.writes (r : Reply) : Set ℕ := covered (r.stores.map fun st => (st.addr, st.bytes.length))

/-- The number of bytes that a handler stores. -/
def Reply.size (r : Reply) : ℕ := (r.stores.map fun st => st.bytes.length).sum

/-- **The parts of memory that a system call fills** if it stores `size` bytes. -/
def outputs (args : SyscallArgs) (size : ℕ) : ℕ → List (ℕ × ℕ)
  -- read, getdents
  | 2 | 14 | 17 => [(args.arg2.toNat, size)]
  -- uname
  | 6 => Caller.unameFields.map fun f => (args.arg1.toNat + f.1, f.2.length)
  -- waitpid
  | 10 => [(args.arg2.toNat, 8)]
  -- pipe
  | 20 => [(args.arg1.toNat, 8)]
  -- stat, fstat
  | 21 | 22 => [(args.arg2.toNat, 144)]
  -- tcgetattr
  | 25 => [(args.arg2.toNat, 60)]
  -- getcwd
  | 27 => [(args.arg1.toNat, size)]
  -- sigaction
  | 29 => [(args.arg3.toNat, 24)]
  | _ => []

section Stores

variable {c : Caller} {r : Reply} {env : Env} {args : SyscallArgs}

theorem mem_writes {a : ℕ} :
    a ∈ r.writes ↔ ∃ st ∈ r.stores, st.addr ≤ a ∧ a < st.addr + st.bytes.length := by
  simp [Reply.writes, covered]

theorem mem_covered_singleton {a addr n : ℕ} :
    a ∈ covered [(addr, n)] ↔ addr ≤ a ∧ a < addr + n := by
  simp [covered]

theorem writes_of_size_eq_zero (h : r.size = 0) : r.writes = ∅ := by
  refine Set.eq_empty_of_forall_notMem fun a ha => ?_
  obtain ⟨st, hst, hle, hlt⟩ := mem_writes.mp ha
  have hzero := (List.sum_eq_zero_iff.mp h) _ (List.mem_map_of_mem hst)
  omega

theorem size_of_nil (h : r.stores = []) : r.size = 0 := by
  rw [Reply.size, h]
  rfl

/-- A handler that stores one string. -/
theorem writes_one {addr : ℕ} {bytes : Bytes} (h : r.stores = [⟨addr, bytes⟩]) :
    r.writes = covered [(addr, bytes.length)] ∧ r.size = bytes.length := by
  rw [Reply.writes, Reply.size, h]
  exact ⟨rfl, by simp⟩

theorem call_stores {call : Call} {stores : List Store} (h : c.call call stores = .ok r) :
    r.stores = stores := by
  unfold Caller.call at h
  cases hrun : call.run c.sys with
  | error e =>
    rw [hrun] at h
    cases h
  | ok x =>
    rw [hrun] at h
    cases h
    rfl

/-- A handler on a descriptor finds the open file, or changes nothing. -/
theorem onFile_cases {fd : ℕ} {bad : ℤ} {refused : Option ℤ}
    {op : ℕ → OpenFile → Except Halt Reply} (h : c.onFile fd bad refused op = .ok r) :
    (r.sys = c.sys ∧ r.stores = []) ∨ ∃ idx file, fdEntry fd c.sys = .ok (some idx) ∧
      c.sys.oft.get idx = some file ∧ op idx file = .ok r := by
  unfold Caller.onFile at h
  by_cases hfd : 16 ≤ fd
  · rw [if_pos hfd] at h
    cases h
    exact .inl ⟨rfl, rfl⟩
  rw [if_neg hfd] at h
  cases hentry : fdEntry fd c.sys with
  | error e =>
    rw [hentry] at h
    cases h
  | ok entry =>
    rw [hentry] at h
    cases entry with
    | none =>
      cases h
      exact .inl ⟨rfl, rfl⟩
    | some idx =>
      cases refused with
      | some rc =>
        cases h
        exact .inl ⟨rfl, rfl⟩
      | none =>
        dsimp only at h
        cases hfile : c.sys.oft.get idx with
        | none =>
          rw [hfile] at h
          cases h
          exact .inl ⟨rfl, rfl⟩
        | some file =>
          rw [hfile] at h
          exact .inr ⟨idx, file, rfl, hfile, h⟩

theorem onFile_stores {fd : ℕ} {bad : ℤ} {refused : Option ℤ}
    {op : ℕ → OpenFile → Except Halt Reply} (h : c.onFile fd bad refused op = .ok r) :
    r.stores = [] ∨ ∃ idx file, op idx file = .ok r :=
  (onFile_cases h).imp And.right fun ⟨idx, file, _, _, hop⟩ => ⟨idx, file, hop⟩

/-- A read stores to its buffer only. -/
theorem readFile_stores {missing : ℤ} {buf idx : ℕ} {len : BitVec 64} {file : OpenFile}
    (h : c.readFile env missing buf len idx file = .ok r) :
    r.stores = [] ∨ ∃ bytes, r.stores = [⟨buf, bytes⟩] := by
  unfold Caller.readFile at h
  cases hop : readOp env file len with
  | missing =>
    simp only [hop] at h
    cases h
    exact .inl rfl
  | terminal =>
    simp only [hop] at h
    exact .inr ⟨_, call_stores h⟩
  | moved offset rc bytes =>
    simp only [hop] at h
    exact .inr ⟨_, call_stores h⟩

theorem map_stores {x : Except Halt Reply} {f : Reply → Reply} (h : x.map f = .ok r) :
    ∃ r', x = .ok r' ∧ f r' = r := by
  cases x with
  | error e => cases h
  | ok r' =>
    cases h
    exact ⟨r', rfl, rfl⟩

@[simp] theorem length_leBytes (n value : ℕ) : (leBytes n value).length = n := by
  simp [leBytes]

theorem length_statFromVnode (kind : FileKind) : (statFromVnode kind).length = 144 := by
  simp [statFromVnode]

theorem length_actionBytes (a : SigAction) : (Caller.actionBytes a).length = 24 := by
  simp [Caller.actionBytes]

theorem length_dirent {d : Dirent} (h : d.name.length ≤ 261) : d.bytes.length = direntSize := by
  simp [Dirent.bytes, direntSize]
  omega

theorem readdir_names {kind : FileKind} {entries : List Dirent} (h : kind.readdir = some entries) :
    ∀ d ∈ entries, d.name.length ≤ 261 := by
  unfold FileKind.readdir at h
  split at h <;> cases h <;> decide

/-- The parts of memory that the entries of a directory take. -/
theorem dirent_ranges {buf : ℕ} {l : List Dirent} (h : ∀ d ∈ l, d.name.length ≤ 261) :
    (l.zipIdx.map fun d => (buf + direntSize * d.2, d.1.bytes.length)) =
      (List.range l.length).map fun i => (buf + direntSize * i, direntSize) := by
  refine List.ext_getElem (by simp) fun i hi _ => ?_
  simp [length_dirent (h _ (List.getElem_mem _))]

/-- Parts of memory one after the other. -/
theorem covered_consecutive {buf size n : ℕ} (hsize : 0 < size) :
    covered ((List.range n).map fun i => (buf + size * i, size)) = covered [(buf, size * n)] := by
  ext a
  rw [mem_covered_singleton]
  simp only [covered, List.mem_map, List.mem_range, Set.mem_ofPred_eq]
  constructor
  · rintro ⟨_, ⟨i, hi, rfl⟩, hle, hlt⟩
    have hmul : size * (i + 1) ≤ size * n := Nat.mul_le_mul_left _ hi
    rw [Nat.mul_succ] at hmul
    dsimp only at hle hlt
    omega
  · rintro ⟨hle, hlt⟩
    have hdiv := Nat.div_add_mod (a - buf) size
    have hmod := Nat.mod_lt (a - buf) hsize
    have hquot : (a - buf) / size < n := Nat.div_lt_of_lt_mul (by omega)
    exact ⟨_, ⟨_, hquot, rfl⟩, by dsimp only; omega, by dsimp only; omega⟩

/-- The reply stores nothing, or it fills the parts of memory that the table has. -/
def Fills (args : SyscallArgs) (n : ℕ) (r : Reply) : Prop :=
  r.stores = [] ∨ r.writes = covered (outputs args r.size n)

theorem fills_one {addr n : ℕ} {bytes : Bytes} (h : r.stores = [⟨addr, bytes⟩])
    (hout : outputs args bytes.length n = [(addr, bytes.length)]) : Fills args n r := by
  obtain ⟨hwrites, hsize⟩ := writes_one h
  exact .inr (by rw [hwrites, hsize, hout])

theorem fills_dirents (s : System) (cwd : PathBuf) (rc : ℤ) {l : List Dirent}
    (hl : ∀ d ∈ l, d.name.length ≤ 261) :
    Fills args 17 ⟨s, cwd, rc,
      l.zipIdx.map fun d => ⟨args.arg2.toNat + direntSize * d.2, d.1.bytes⟩⟩ := by
  have hranges : (l.zipIdx.map fun d =>
      (args.arg2.toNat + direntSize * d.2, d.1.bytes.length)) = _ := dirent_ranges hl
  have hlens := congrArg (List.map Prod.snd) hranges
  simp only [List.map_map, Function.comp_def] at hlens
  refine .inr ?_
  simp only [Reply.writes, Reply.size, List.map_map, Function.comp_def, outputs]
  rw [hranges, hlens, covered_consecutive (by decide)]
  simp [Nat.mul_comm]

theorem sysGetdents_fills (h : c.sysGetdents env args = .ok r) : Fills args 17 r := by
  rcases onFile_stores h with hnil | ⟨idx, file, hop⟩
  · exact .inl hnil
  cases hdir : (env.kind file.vnode.addr).readdir with
  | none =>
    simp only [hdir] at hop
    cases hop
    exact .inl rfl
  | some entries =>
    simp only [hdir] at hop
    cases hop
    exact fills_dirents _ _ _ fun d hd => readdir_names hdir d (List.mem_of_mem_take hd)

theorem sysStat_fills (h : c.sysStat env args = .ok r) : Fills args 21 r := by
  unfold Caller.sysStat at h
  split at h
  next => cases h
  next =>
    cases h
    exact .inl rfl
  next path hpath =>
    split at h
    next => cases h
    next => cases h
    next =>
      cases h
      exact .inl rfl
    next vn _ _ =>
      cases h
      refine fills_one rfl ?_
      rw [length_statFromVnode]
      rfl

theorem sysFstat_fills (h : c.sysFstat env args = .ok r) : Fills args 22 r := by
  rcases onFile_stores h with hnil | ⟨idx, file, hop⟩
  · exact .inl hnil
  · cases hop
    refine fills_one rfl ?_
    rw [length_statFromVnode]
    rfl

theorem onTty_stores {stores : List Store} (h : c.onTty env args stores = .ok r) :
    r.stores = [] ∨ r.stores = stores := by
  unfold Caller.onTty at h
  split_ifs at h
  · cases h
    exact .inl rfl
  · rcases onFile_stores h with hnil | ⟨idx, file, hop⟩
    · exact .inl hnil
    · split_ifs at hop
      · cases hop
        exact .inr rfl
      · cases hop
        exact .inl rfl

theorem waitpid_fills (h : c.waitpid args = .ok r) : Fills args 10 r := by
  unfold Caller.waitpid at h
  cases hrun : sysWaitpid args.arg1.toNat args.arg3.toNat c.sys with
  | error e =>
    rw [hrun] at h
    cases h
  | ok x =>
    rw [hrun] at h
    cases h
    obtain ⟨s, rc, reaped⟩ := x
    cases reaped with
    | none => exact .inl rfl
    | some q =>
      by_cases hnull : args.arg2 = 0
      · exact .inl (if_pos hnull)
      · exact fills_one (if_neg hnull) (by rw [length_leBytes]; rfl)

theorem pipe_fills (h : c.pipe env args = .ok r) : Fills args 20 r := by
  obtain ⟨r', hcall, rfl⟩ := map_stores h
  by_cases hrc : r'.rc = 0
  · rw [if_pos hrc]
    cases hfds : Caller.pipeFds c.sys with
    | none => exact .inl rfl
    | some fds =>
      refine .inr ?_
      ext a
      simp only [mem_writes, outputs, mem_covered_singleton, List.mem_cons, List.not_mem_nil,
        or_false, exists_eq_or_imp, exists_eq_left, length_leBytes]
      omega
  · rw [if_neg hrc]
    exact .inl (call_stores hcall)

theorem sigaction_fills (h : c.sigaction env args = .ok r) : Fills args 29 r := by
  obtain ⟨r', hcall, rfl⟩ := map_stores h
  by_cases hrc : r'.rc = 0 ∧ args.arg3 ≠ 0
  · rw [if_pos hrc]
    cases hcur : c.sys.current with
    | none => exact .inl rfl
    | some x =>
      refine fills_one rfl ?_
      rw [length_actionBytes]
      rfl
  · rw [if_neg hrc]
    exact .inl (call_stores hcall)

theorem sysGetcwd_fills (h : c.sysGetcwd args = .ok r) : Fills args 27 r := by
  unfold Caller.sysGetcwd at h
  cases hcur : c.sys.current with
  | none =>
    rw [hcur] at h
    cases h
  | some x =>
    simp only [hcur] at h
    split_ifs at h
    · cases h
      exact .inl rfl
    · cases h
      exact fills_one rfl rfl

theorem readFile_fills {missing : ℤ} {n fd : ℕ} {bad : ℤ} {refused : Option ℤ}
    (hout : ∀ size, outputs args size n = [(args.arg2.toNat, size)])
    (h : c.onFile fd bad refused (c.readFile env missing args.arg2.toNat args.arg3) = .ok r) :
    Fills args n r := by
  rcases onFile_stores h with hnil | ⟨idx, file, hop⟩
  · exact .inl hnil
  · rcases readFile_stores hop with hnil | ⟨bytes, hone⟩
    · exact .inl hnil
    · exact fills_one hone (hout _)

theorem sysRead_fills (h : c.sysRead env args = .ok r) : Fills args 2 r := by
  unfold Caller.sysRead at h
  split_ifs at h
  · cases h
    exact .inl rfl
  · obtain ⟨r', hread, rfl⟩ := map_stores h
    -- the result is another, but not what is stored
    have hfills : Fills args 2 r' := readFile_fills (fun _ => rfl) hread
    exact hfills

theorem sysWrite_stores (h : c.sysWrite env args = .ok r) : r.stores = [] := by
  unfold Caller.sysWrite at h
  split_ifs at h
  · cases h
    rfl
  · rcases onFile_stores h with hnil | ⟨idx, file, hop⟩
    · exact hnil
    · cases hwrite : writeOp env file args.arg2.toNat args.arg3 <;> simp only [hwrite] at hop <;>
        cases hop <;> rfl

theorem sysLseek_stores (h : c.sysLseek env args = .ok r) : r.stores = [] := by
  rcases onFile_stores h with hnil | ⟨idx, file, hop⟩
  · exact hnil
  · dsimp only at hop
    split_ifs at hop
    · exact call_stores hop
    · cases hop
      rfl

theorem openPath_stores (h : c.openPath env args = .ok r) : r.stores = [] := by
  unfold Caller.openPath at h
  cases hres : Caller.resolveUser env args.arg1 with
  | error e =>
    rw [hres] at h
    cases h
  | ok resolved =>
    rw [hres] at h
    exact call_stores h

theorem execPath_stores (h : c.execPath env args = .ok r) : r.stores = [] := by
  unfold Caller.execPath at h
  cases hcur : c.sys.current with
  | none =>
    rw [hcur] at h
    cases h
  | some x =>
    cases hres : Caller.resolveUser env args.arg1 with
    | error e =>
      rw [hcur, hres] at h
      cases h
    | ok resolved =>
      rw [hcur, hres] at h
      cases resolved with
      | error e =>
        cases h
        rfl
      | ok vn =>
        dsimp only at h
        split_ifs at h
        · cases h
          rfl
        · exact call_stores h

theorem sysChdir_stores (h : c.sysChdir env args = .ok r) : r.stores = [] := by
  unfold Caller.sysChdir at h
  split at h
  next => cases h
  next =>
    cases h
    rfl
  next =>
    split at h
    next => cases h
    next => cases h
    next =>
      cases h
      rfl
    next =>
      cases h
      rfl

/-- **The handlers of the table** store where the table of outputs says. -/
theorem handler_fills {n : ℕ} (h : c.handler env args n = some (.ok r)) : Fills args n r := by
  unfold Caller.handler at h
  split at h <;> (try cases h; done) <;> have h' := Option.some.inj h <;> clear h
  · exact .inl (call_stores h')
  · exact .inl (sysWrite_stores h')
  · exact sysRead_fills h'
  · cases h'
    exact .inl rfl
  · exact .inl (call_stores h')
  · unfold Caller.sysNanosleep at h'
    split_ifs at h' <;> cases h' <;> exact .inl rfl
  · cases h'
    exact .inr (congrArg covered List.map_map)
  · unfold Caller.sysReboot at h'
    split_ifs at h' <;> cases h' <;> exact .inl rfl
  · exact .inl (call_stores h')
  · exact .inl (execPath_stores h')
  · exact waitpid_fills h'
  · exact .inl (call_stores h')
  · exact .inl (openPath_stores h')
  · exact .inl (call_stores h')
  · exact readFile_fills (fun _ => rfl) h'
  · rcases onFile_stores h' with hnil | ⟨idx, file, hop⟩
    · exact .inl hnil
    · cases hop
      exact .inl rfl
  · exact .inl (sysLseek_stores h')
  · exact sysGetdents_fills h'
  · exact .inl (call_stores h')
  · exact .inl (call_stores h')
  · exact pipe_fills h'
  · exact sysStat_fills h'
  · exact sysFstat_fills h'
  · exact .inl (sysChdir_stores h')
  · rcases onFile_stores h' with hnil | ⟨idx, file, hop⟩
    · exact .inl hnil
    · cases hop
      exact .inl rfl
  · rcases onTty_stores h' with hnil | hone
    · exact .inl hnil
    · exact fills_one hone rfl
  · rcases onTty_stores h' with hnil | hone
    · exact .inl hnil
    · exact .inl hone
  · exact sysGetcwd_fills h'
  · exact .inl (call_stores h')
  · exact sigaction_fills h'
  · exact .inl (call_stores h')

/-- **A system call** stores where the table of outputs says. -/
theorem syscallHandler_fills {num : BitVec 64} (h : c.syscallHandler env num args = .ok r) :
    Fills args num.toNat r := by
  unfold Caller.syscallHandler at h
  split at h
  next => cases h
  next s x hcheck =>
    unfold Caller.dispatch at h
    split_ifs at h
    · cases hx : Caller.handler env ⟨s, c.cwd⟩ args num.toNat with
      | none =>
        rw [hx] at h
        cases h
        exact .inl rfl
      | some x =>
        rw [hx, Option.getD_some] at h
        rw [h] at hx
        exact handler_fills hx
    · cases h
      exact .inl rfl
  next =>
    cases h
    exact .inl rfl

end Stores

end Vibix.Proc
