import ShadowStack.Lkm.Areas
import ShadowStack.Lkm.Pivot

/-!
# The character device

The calls of the module as user space makes them: `lkm/core/chrdev_fops.c` and
`lkm/core/chrdev_ioctl.c`.  `shadow_open` was meant to create the allocator of the process; that part
of it is commented out, and nothing else creates one.
-/

namespace ShadowStack.Lkm

open Lib State

/-! ## Command numbers -/

/-- `_IOC_NR`. -/
def iocNr (cmd : Nat) : Nat := cmd % 2 ^ 8

/-- `_IOC_TYPE`. -/
def iocType (cmd : Nat) : Nat := cmd / 2 ^ 8 % 2 ^ 8

/-- `_IOC_DIR`. -/
def iocDir (cmd : Nat) : Nat := cmd / 2 ^ 30 % 2 ^ 2

/-- `_IOWR`, with the size of the parameter struct. -/
def iowr (type nr size : Nat) : Nat := 3 * 2 ^ 30 + size * 2 ^ 16 + type * 2 ^ 8 + nr

def ioctlShadowMagic : Nat := 0xca
def ioctlShadowReq : Nat := iowr ioctlShadowMagic 0x70 16
def ioctlShadowFree : Nat := iowr ioctlShadowMagic 0x71 16
def ioctlShadowFork : Nat := iowr ioctlShadowMagic 0x72 16
def ioctlShadowPivot : Nat := iowr ioctlShadowMagic 0x73 24
def ioctlShadowMaxNr : Nat := 0x74

/-- The number behind an error, as the calls return it. -/
def Errno.code : Errno → Int
  | .EINVAL => -22
  | .ENOMEM => -12
  | .ENOENT => -2
  | .EBUSY => -16

/-- `check_ioctl_cmd`; -25 is `-ENOTTY`. -/
def checkIoctlCmd (cmd : Nat) : Int :=
  if iocType cmd ≠ ioctlShadowMagic then Errno.EINVAL.code
  else if ioctlShadowMaxNr < iocNr cmd then Errno.EINVAL.code
  else if cmd = ioctlShadowReq ∨ cmd = ioctlShadowFree ∨ cmd = ioctlShadowFork ∨
      cmd = ioctlShadowPivot then
    if iocDir cmd &&& 3 = 0 then Errno.EINVAL.code else 0
  else -25

/-! ## The dispatcher -/

/-- The parameter struct behind `arg`, in words: all of them start with `error`.  The second word is
`addr` or `new_stack_address` or the pair `p_tgid`, `p_pid`; the third is `rsp`. -/
structure Params where
  error : Int
  second : Nat
  third : Nat
deriving DecidableEq, Repr

/-- A 32-bit `pid_t` as an index: negative values are sign-extended. -/
def pidIndex (w : Nat) : Nat := if w < 2 ^ 31 then w else 2 ^ 64 - 2 ^ 32 + w

def Params.pTgid (p : Params) : Nat := pidIndex (p.second % 2 ^ 32)

def Params.pPid (p : Params) : Nat := pidIndex (p.second / 2 ^ 32 % 2 ^ 32)

/-- The bytes of a 64-bit word. -/
def wordBytes (w : Nat) : List UInt8 := (List.range 8).map fun i ↦ UInt8.ofNat (w / 256 ^ i)

/-- The struct, as it lies in memory. -/
def Params.bytes (p : Params) : List UInt8 :=
  wordBytes (p.error % 2 ^ 64).toNat ++ wordBytes p.second ++ wordBytes p.third

/-- One `ioctl`: the command, the struct behind its argument, whether that can be read and written, how
many bytes `copy_to_user` writes where it fails, what the uninitialised `addr` of the
`IOCTL_SHADOW_REQ` branch happens to hold, and the answers of the kernel. -/
structure Request where
  cmd : Nat
  arg : Params
  copyFrom : Bool
  copyTo : Bool
  torn : Nat
  stale : Nat
  ans : Answers

/-- The module behind its device: the state of the allocator, the address spaces as `sa_pivot` sees
them, and the thread group of every open file. -/
structure Device where
  lkm : State
  layouts : MmId → MmFields
  files : List Nat

/-- The error field of a reply. -/
def Reply.code (r : Reply) : Int := (r.err.map Errno.code).getD 0

/-- What an `ioctl` comes back with: 0 and the struct it has written, or an error and the bytes it has
written all the same. -/
abbrev IoctlResult := Except (Int × List UInt8) Params

/-- `copy_to_user` at the end of a branch: 0 with the struct written, or `-EFAULT` with the first bytes of it. -/
def copyOut (r : Request) (p : Params) : IoctlResult :=
  if r.copyTo then .ok p else .error (-14, p.bytes.take r.torn)

namespace Device

/-- The branches of `chrdev_ioctl`, once the parameter struct has been read. -/
def dispatch (d : Device) (cur : Task) (r : Request) : Option (IoctlResult × Device) :=
  if r.cmd = ioctlShadowReq then
    let (reply, s) := saAlloc d.lkm cur r.ans
    some (copyOut r { r.arg with error := reply.code, second := reply.addr.getD r.stale },
      { d with lkm := s })
  else if r.cmd = ioctlShadowFree then
    let (reply, s) := saFree d.lkm cur r.ans r.arg.second
    some (copyOut r { r.arg with error := reply.code }, { d with lkm := s })
  else if r.cmd = ioctlShadowFork then
    let (reply, s) := saFork d.lkm cur r.ans r.arg.pTgid r.arg.pPid
    some (copyOut r { r.arg with error := reply.code }, { d with lkm := s })
  else
    match saPivot (cur.mm.map d.layouts) r.arg.third r.arg.second with
    | none => none
    | some (error, layout) =>
        some (copyOut r { r.arg with error := error }, { d with
          layouts := match cur.mm, layout with
            | some mm, some l => Function.update d.layouts mm l
            | _, _ => d.layouts })

/-- `chrdev_ioctl`: the error it returns, or 0 with the parameter struct it leaves behind; `none` where
`sa_pivot` does not come back. -/
def chrdevIoctl (d : Device) (cur : Task) (r : Request) : Option (IoctlResult × Device) :=
  if checkIoctlCmd r.cmd ≠ 0 then some (.error (checkIoctlCmd r.cmd, []), d)
  else if r.copyFrom then d.dispatch cur r
  else some (.error (-14, []), d)

/-- `shadow_open`: its result, and the device with the new file. -/
def shadowOpen (d : Device) (cur : Task) : Int × Device := (0, { d with files := cur.tgid :: d.files })

/-- `shadow_release`, when a file is closed. -/
def shadowRelease (d : Device) (cur : Task) : Int × Device :=
  (0, { d with files := d.files.erase cur.tgid })

/-- The module as it is loaded, before any process has opened its device. -/
def init (l5 : Bool) (mms : MmId → Mm) (data : Page → PageData) (layouts : MmId → MmFields) : Device :=
  ⟨.init l5 mms data, layouts, []⟩

end Device

/-- The system calls on the device. -/
inductive Syscall where
  | openFile
  | closeFile
  | ioctl (r : Request)

/-- A system call by a thread with a user address space; `close` and `ioctl` need an open file. -/
inductive SysStep (d : Device) : Task × Syscall → Device → Prop
  | openFile {cur : Task} (hmm : cur.mm.isSome) : SysStep d (cur, .openFile) (d.shadowOpen cur).2
  | closeFile {cur : Task} (hmm : cur.mm.isSome) (hfile : cur.tgid ∈ d.files) :
      SysStep d (cur, .closeFile) (d.shadowRelease cur).2
  | ioctl {cur : Task} {r : Request} {res : IoctlResult} {d' : Device} (hmm : cur.mm.isSome)
      (hfile : cur.tgid ∈ d.files) (hres : d.chrdevIoctl cur r = some (res, d')) :
      SysStep d (cur, .ioctl r) d'

/-! ## No process has an allocator -/

/-- Whether a call serves an area of its caller. -/
def Call.ServesArea : Call → Prop
  | .saAlloc | .saFork _ _ | .saFree _ => True
  | _ => False

/-- Every `ioctl` makes at most one call of the module, and that is about an area. -/
theorem Device.chrdevIoctl_lkm {d d' : Device} {cur : Task} {r : Request} {res : IoctlResult}
    (h : d.chrdevIoctl cur r = some (res, d')) :
    d'.files = d.files ∧ (d'.lkm = d.lkm ∨
      ∃ call : Call, call.ServesArea ∧ d'.lkm = (exec d.lkm ⟨cur, call, r.ans⟩).2) := by
  unfold chrdevIoctl dispatch at h
  split_ifs at h
  · cases h
    exact ⟨rfl, .inl rfl⟩
  · cases h
    exact ⟨rfl, .inr ⟨.saAlloc, trivial, rfl⟩⟩
  · cases h
    exact ⟨rfl, .inr ⟨.saFree r.arg.second, trivial, rfl⟩⟩
  · cases h
    exact ⟨rfl, .inr ⟨.saFork r.arg.pTgid r.arg.pPid, trivial, rfl⟩⟩
  · split at h
    · cases h
    · cases h
      exact ⟨rfl, .inl rfl⟩
  · cases h
    exact ⟨rfl, .inl rfl⟩

/-- `sa_allocators` is empty. -/
def NoAllocator (s : State) : Prop := ∀ tgid, s.allocFind tgid = none

theorem NoAllocator.allocGet {s : State} (h : NoAllocator s) (tgid : Nat) : s.allocGet tgid = none := by
  rw [State.allocGet, h tgid]

/-- Without an allocator `sa_alloc` gives up at once. -/
theorem NoAllocator.saAlloc {s : State} (h : NoAllocator s) {cur : Task} {ans : Answers}
    (hmm : cur.mm.isSome) : saAlloc s cur ans = (.fail .ENOMEM, s) := by
  obtain ⟨mm, hmm⟩ := Option.isSome_iff_exists.mp hmm
  simp only [Lkm.saAlloc, hmm, h.allocGet]

/-- And no call about an area changes anything. -/
theorem NoAllocator.exec {s : State} (h : NoAllocator s) {cur : Task} {call : Call} {ans : Answers}
    (hmm : cur.mm.isSome) (hcall : call.ServesArea) : (exec s ⟨cur, call, ans⟩).2 = s := by
  obtain ⟨mm, hm⟩ := Option.isSome_iff_exists.mp hmm
  cases call with
  | saAlloc => exact congrArg Prod.snd (h.saAlloc hmm)
  | saFork parentTgid parentPid => simp only [Lkm.exec, saFork, hm, h.allocGet]
  | saFree addr =>
      simp only [Lkm.exec, saFree, hm, h cur.tgid]
      split_ifs <;> rfl
  | allocCreate => exact hcall.elim
  | allocDestroy => exact hcall.elim
  | vmaFree => exact hcall.elim

theorem SysStep.noAllocator {d d' : Device} {e : Task × Syscall} (h : SysStep d e d')
    (hno : NoAllocator d.lkm) : NoAllocator d'.lkm := by
  cases h with
  | openFile => exact hno
  | closeFile => exact hno
  | ioctl hmm hfile hres =>
      obtain ⟨-, hsame | ⟨call, hcall, heq⟩⟩ := Device.chrdevIoctl_lkm hres
      · rw [hsame]
        exact hno
      · rw [heq, hno.exec hmm hcall]
        exact hno

/-- No run of system calls gives any process an allocator. -/
theorem run_noAllocator {l5 : Bool} {mms : MmId → Mm} {data : Page → PageData}
    {layouts : MmId → MmFields} {es : List (Task × Syscall)} {d : Device}
    (h : Run SysStep (.init l5 mms data layouts) es d) : NoAllocator d.lkm :=
  h.invariant (I := fun d ↦ NoAllocator d.lkm) (fun _ ↦ rfl) fun _ _ _ hno hs ↦ hs.noAllocator hno

/-! ## Requests -/

/-- Every memory request is granted. -/
structure Answers.Granted (ans : Answers) : Prop where
  allocDesc : ans.allocDesc
  xaMem : ans.xaMem
  thread : ans.thread
  pagelist : ans.pagelist
  pages : (saPagelistAllocPages ans ssPages).isSome
  tables : ∀ level n, (ans.tables level n).isSome

/-- A request for an area that nothing speaks against: the process has the device open and fewer than
`THREADS_LIMIT` areas, its struct can be read and written, and there is memory. -/
structure Serviceable (d : Device) (cur : Task) (r : Request) : Prop where
  file : cur.tgid ∈ d.files
  mm : cur.mm.isSome
  cmd : r.cmd = ioctlShadowReq
  copyFrom : r.copyFrom
  copyTo : r.copyTo
  granted : r.ans.Granted
  room : ∀ a, d.lkm.allocFind cur.tgid = some a → (d.lkm.threads a).used.card < threadsLimit

/-- The request is answered by error 0 and an area that the process did not have before. -/
def Served (d : Device) (cur : Task) (r : Request) : Prop :=
  ∃ p d' a t, d.chrdevIoctl cur r = some (.ok p, d') ∧ p.error = 0 ∧
    d'.lkm.allocFind cur.tgid = some a ∧ (d'.lkm.threads a).load (addrToId p.second) = some t ∧
    t.addr = p.second ∧ (d.lkm.threads a).load (addrToId p.second) = none

/-- Where no process has an allocator, such a request is answered with `-ENOMEM`. -/
theorem NoAllocator.chrdevIoctl_req {d : Device} {cur : Task} {r : Request} (hno : NoAllocator d.lkm)
    (h : Serviceable d cur r) :
    d.chrdevIoctl cur r = some (.ok { r.arg with error := -12, second := r.stale }, d) := by
  have hcheck : ¬ checkIoctlCmd r.cmd ≠ 0 := by
    rw [h.cmd]
    decide
  rw [Device.chrdevIoctl, if_neg hcheck, if_pos h.copyFrom, Device.dispatch, if_pos h.cmd,
    hno.saAlloc h.mm]
  simp only [copyOut, if_pos h.copyTo]
  rfl

theorem NoAllocator.not_served {d : Device} {cur : Task} {r : Request} (hno : NoAllocator d.lkm)
    (h : Serviceable d cur r) : ¬ Served d cur r := by
  rintro ⟨p, d', a, t, hres, herr, -⟩
  rw [hno.chrdevIoctl_req h] at hres
  obtain ⟨hp, -⟩ := Prod.mk.inj (Option.some.inj hres)
  rw [← Except.ok.inj hp] at herr
  exact absurd herr (show (-12 : Int) ≠ 0 by decide)

/-- **No request is ever served**: after every run of system calls from the loading of the module, a
request for an area that nothing speaks against is answered with `-ENOMEM`. -/
theorem run_req_refused {l5 : Bool} {mms : MmId → Mm} {data : Page → PageData}
    {layouts : MmId → MmFields} {es : List (Task × Syscall)} {d : Device} {cur : Task} {r : Request}
    (hrun : Run SysStep (.init l5 mms data layouts) es d) (h : Serviceable d cur r) :
    d.chrdevIoctl cur r = some (.ok { r.arg with error := -12, second := r.stale }, d) ∧
      ¬ Served d cur r :=
  ⟨(run_noAllocator hrun).chrdevIoctl_req h, (run_noAllocator hrun).not_served h⟩

/-- The module after process 1 has opened its device. -/
def openedDevice : Device :=
  ⟨.init false (fun _ ↦ textMm) fun _ _ ↦ 0, fun _ ↦ ⟨[], 0, 0, 0, 0, 0, []⟩, [1]⟩

/-- The first request of process 1. -/
def firstRequest : Request := ⟨ioctlShadowReq, ⟨0, 0, 0⟩, true, true, 0, 0, grants 0⟩

theorem granted_grants (first : Page) : (grants first).Granted := by
  refine ⟨rfl, rfl, rfl, rfl, ?_, fun _ _ ↦ rfl⟩
  rw [saPagelistAllocPages, if_pos (show (grants first).kvcalloc = true from rfl), obtained_grants,
    if_pos List.length_range']
  rfl

theorem serviceable_firstRequest : Serviceable openedDevice ⟨1, 1, some 0⟩ firstRequest :=
  ⟨List.mem_singleton_self 1, rfl, rfl, rfl, rfl, granted_grants 0, fun _ hfind ↦ nomatch hfind⟩

theorem run_openedDevice :
    Run SysStep (.init false (fun _ ↦ textMm) (fun _ _ ↦ 0) fun _ ↦ ⟨[], 0, 0, 0, 0, 0, []⟩)
      [(⟨1, 1, some 0⟩, .openFile)] openedDevice :=
  Run.single (.openFile rfl)

/-- The first request of a process that has just opened the device. -/
theorem run_req_refused_first :
    openedDevice.chrdevIoctl ⟨1, 1, some 0⟩ firstRequest = some (.ok ⟨-12, 0, 0⟩, openedDevice) :=
  (run_req_refused run_openedDevice serviceable_firstRequest).1

theorem not_run_req_served :
    ¬ ∀ (l5 : Bool) (mms : MmId → Mm) (data : Page → PageData) (layouts : MmId → MmFields)
      (es : List (Task × Syscall)) (d : Device) (cur : Task) (r : Request),
      Run SysStep (.init l5 mms data layouts) es d → Serviceable d cur r → Served d cur r := by
  intro h
  have hserved := h _ _ _ _ _ _ _ _ run_openedDevice serviceable_firstRequest
  exact (run_noAllocator run_openedDevice).not_served serviceable_firstRequest hserved

end ShadowStack.Lkm
