import TinDox.Ownership
import TinDox.Path
import TinDox.Runs

/-! `IoDevice`, `FileDevice` and `TcpSocket`: the objects that hold the descriptors of the process,
and the kernel's table of what is open. -/

namespace TinDox

/-- What a system call returns, and `errno` after it. -/
structure Syscall where
  result : Int
  errno : Int

structure LinuxError where
  code : Int
  what : Bytes

structure EndpointV4 where
  address : UInt32 := 0
  port : UInt16 := 0

inductive DeviceType where
  | ioDevice
  | fileDevice
  | tcpSocket (endpoint : EndpointV4)

/-- The moves of `IoDevice` are protected: a class that has public ones moves its own objects only. -/
def DeviceType.MovesTo : DeviceType → DeviceType → Prop
  | fileDevice, fileDevice => True
  | tcpSocket _, tcpSocket _ => True
  | _, _ => False

structure Device where
  type : DeviceType
  fd : Int

namespace Device

def isValid (d : Device) : Bool := decide (0 ≤ d.fd)

def descriptor (d : Device) : Option Nat := if d.isValid then some d.fd.toNat else none

theorem descriptor_eq_some {d : Device} {n : Nat} : d.descriptor = some n ↔ d.fd = n := by
  unfold descriptor isValid
  by_cases hd : 0 ≤ d.fd
  · simp only [hd, decide_true, if_true, Option.some.injEq]
    omega
  · simp only [hd, decide_false, Bool.false_eq_true, if_false, reduceCtorEq, false_iff]
    omega

theorem descriptor_of_neg {d : Device} (h : d.fd < 0) : d.descriptor = none := by
  apply Option.eq_none_iff_forall_ne_some.mpr
  intro n hn
  have := descriptor_eq_some.mp hn
  omega

end Device

/-- Whom an open descriptor belongs to: the devices, or the rest of the process. -/
inductive Origin where
  | devices
  | elsewhere
  deriving DecidableEq

/-- The devices are numbered, and `strays` has the descriptors that were closed by a device although
they were not open, or not the devices' own. -/
structure Process where
  table : Nat → Option Origin
  devices : Nat → Option Device
  strays : List Nat

namespace Process

def start (inherited : Nat → Bool) : Process :=
  ⟨fun n => if inherited n then some .elsewhere else none, fun _ => none, []⟩

section Kernel

def setEntry (p : Process) (n : Nat) (entry : Option Origin) : Process :=
  { p with table := Function.update p.table n entry }

/-- `open(2)`; a call that fails opens nothing. -/
def openEntry (p : Process) (call : Syscall) : Process :=
  if 0 ≤ call.result then p.setEntry call.result.toNat (some .devices) else p

/-- `close(2)`; a negative number is not a descriptor. -/
def closeFd (p : Process) (fd : Int) : Process :=
  if 0 ≤ fd then
    { p.setEntry fd.toNat none with
      strays := if p.table fd.toNat = some .devices then p.strays else fd.toNat :: p.strays }
  else p

/-- An open descriptor belongs to the devices from when one of them is constructed from it. -/
def adopt (p : Process) (fd : Int) : Process :=
  if 0 ≤ fd ∧ (p.table fd.toNat).isSome then p.setEntry fd.toNat (some .devices) else p

end Kernel

section Devices

variable (p : Process) (id other : Nat)

def put (d : Option Device) : Process := { p with devices := Function.update p.devices id d }

def ioDevice : Process := p.put id (some ⟨.ioDevice, -1⟩)

/-- `IoDevice::IoDevice(int)`. -/
def ioDeviceOf (type : DeviceType) (fd : Int) : Process := (p.adopt fd).put id (some ⟨type, fd⟩)

/-- `IoDevice::~IoDevice`. -/
def destroy : Process :=
  match p.devices id with
  | some d => (p.closeFd d.fd).put id none
  | none => p

def close : Process :=
  match p.devices id with
  | some d => (p.put id (some { d with fd := -1 })).closeFd d.fd
  | none => p

def setFd (fd : Int) : Process :=
  match p.devices id with
  | some d => p.put id (some { d with fd })
  | none => p

/-- The device takes over the members of the other one, whose descriptor is exchanged for -1. -/
def take (d : Device) : Process := (p.put other (some { d with fd := -1 })).put id (some d)

def moveConstruct : Process :=
  match p.devices other with
  | some d => p.take id other d
  | none => p

def moveAssign : Process :=
  if id = other then p
  else
    match p.devices id, p.devices other with
    | some _, some d => p.take id other d
    | _, _ => p

def fileDevice : Process := p.put id (some ⟨.fileDevice, -1⟩)

/-- `FileDevice::open`: what `open(2)` makes of the name and the flags is in its result. -/
def openFile (call : Syscall) : Process × Option LinuxError :=
  let q := p.openEntry call
  if call.result = -1 then (q, some ⟨call.errno, ascii "open(2)"⟩) else (q.setFd id call.result, none)

def tcpSocket : Process := p.ioDeviceOf id (.tcpSocket {}) (-1)

/-- `TcpSocket::TcpSocket(int, EndpointV4)`: when `setsockopt(2)` fails the base is destroyed. -/
def tcpSocketOf (fd : Int) (endpoint : EndpointV4) (call : Syscall) : Process × Option LinuxError :=
  let q := p.ioDeviceOf id (.tcpSocket endpoint) fd
  if call.result = -1 then (q.destroy id, some ⟨call.errno, ascii "setsockopt(2)"⟩) else (q, none)

end Devices

inductive Operation where
  | ioDevice (id : Nat)
  | fileDevice (id : Nat)
  | tcpSocket (id : Nat)
  | tcpSocketOf (id : Nat) (fd : Int) (endpoint : EndpointV4) (call : Syscall)
  | openFile (id : Nat) (call : Syscall)
  | moveConstruct (id other : Nat)
  | moveAssign (id other : Nat)
  | close (id : Nat)
  | destroy (id : Nat)
  /-- The rest of the process opens and closes descriptors too. -/
  | openElsewhere (n : Nat)
  | closeElsewhere (n : Nat)

def perform (p : Process) : Operation → Process × Option LinuxError
  | .ioDevice id => (p.ioDevice id, none)
  | .fileDevice id => (p.fileDevice id, none)
  | .tcpSocket id => (p.tcpSocket id, none)
  | .tcpSocketOf id fd endpoint call => p.tcpSocketOf id fd endpoint call
  | .openFile id call => p.openFile id call
  | .moveConstruct id other => (p.moveConstruct id other, none)
  | .moveAssign id other => (p.moveAssign id other, none)
  | .close id => (p.close id, none)
  | .destroy id => (p.destroy id, none)
  | .openElsewhere n => (p.setEntry n (some .elsewhere), none)
  | .closeElsewhere n => (p.setEntry n none, none)

def step (p : Process) (op : Operation) : Process := (p.perform op).1

/-- What the types of the operands and the kernel allow: a constructor makes an object that is not there
yet, every other operand is a live object of a class that has the operation, `open(2)` returns a free
descriptor, and `setsockopt(2)` succeeds on open ones only. -/
def Possible (p : Process) : Operation → Prop
  | .ioDevice id => p.devices id = none
  | .fileDevice id => p.devices id = none
  | .tcpSocket id => p.devices id = none
  | .tcpSocketOf id fd _ call =>
    p.devices id = none ∧ (call.result = -1 ∨ call.result = 0 ∧ 0 ≤ fd ∧ (p.table fd.toNat).isSome)
  | .openFile id call =>
    (∃ d, p.devices id = some d ∧ d.type = .fileDevice) ∧
      (call.result = -1 ∨ ∃ n : Nat, call.result = n ∧ p.table n = none)
  | .moveConstruct id other => p.devices id = none ∧ ∃ d, p.devices other = some d ∧ d.type.MovesTo d.type
  | .moveAssign id other => ∃ d e, p.devices id = some d ∧ p.devices other = some e ∧ e.type.MovesTo d.type
  | .close id => ∃ d, p.devices id = some d
  | .destroy id => ∃ d, p.devices id = some d
  | .openElsewhere n => p.table n = none
  | .closeElsewhere n => p.table n = some .elsewhere

section Ownership

variable {p q : Process} {id other n : Nat} {d : Device}

def holds (p : Process) (id : Nat) : Option Nat := (p.devices id).bind Device.descriptor

def opened (p : Process) : Set Nat := {n | p.table n = some .devices}

/-- The open descriptors of the devices are those that the live devices hold, each held by one of them,
and no device has closed another one. -/
structure Owned (p : Process) : Prop where
  owns : Owns p.opened p.holds
  strays : p.strays = []

/-- No valid descriptor is overwritten, and the descriptor that a socket is constructed from is open and
belongs to no device. -/
def Disciplined (p : Process) : Operation → Prop
  | .tcpSocketOf _ fd _ _ => 0 ≤ fd → p.table fd.toNat = some .elsewhere
  | .openFile id call => call.result = -1 ∨ p.holds id = none
  | .moveAssign id other => id = other ∨ p.holds id = none
  | _ => True

theorem mem_opened : n ∈ p.opened ↔ p.table n = some .devices := Iff.rfl

theorem holds_of_device (hd : p.devices id = some d) : p.holds id = d.descriptor := by simp [holds, hd]

theorem holds_of_not_live (hd : p.devices id = none) : p.holds id = none := by simp [holds, hd]

@[simp] theorem holds_setEntry (e : Option Origin) : (p.setEntry n e).holds = p.holds := rfl

@[simp] theorem opened_put (d : Option Device) : (p.put id d).opened = p.opened := rfl

@[simp] theorem holds_put (d : Option Device) :
    (p.put id d).holds = Function.update p.holds id (d.bind Device.descriptor) := by
  funext k
  by_cases hk : k = id
  · subst hk
    simp [holds, put]
  · simp [holds, put, hk]

@[simp] theorem opened_setEntry_devices : (p.setEntry n (some .devices)).opened = insert n p.opened := by
  ext m
  by_cases hm : m = n
  · subst hm
    simp [mem_opened, setEntry]
  · simp [mem_opened, setEntry, hm]

theorem mem_opened_setEntry {e : Option Origin} (he : e ≠ some .devices) (m : Nat) :
    m ∈ (p.setEntry n e).opened ↔ m ∈ p.opened ∧ n ≠ m := by
  by_cases hm : m = n
  · subst hm
    simp [mem_opened, setEntry, he]
  · simp [mem_opened, setEntry, hm, Ne.symm hm]

theorem opened_setEntry {e : Option Origin} (he : e ≠ some .devices) (hn : p.table n ≠ some .devices) :
    (p.setEntry n e).opened = p.opened := by
  ext m
  rw [mem_opened_setEntry he]
  constructor
  · exact fun h => h.1
  · intro h
    refine ⟨h, ?_⟩
    intro hm
    exact hn (hm ▸ h)

@[simp] theorem devices_closeFd (fd : Int) : (p.closeFd fd).devices = p.devices := by
  unfold closeFd
  split <;> rfl

@[simp] theorem devices_adopt (fd : Int) : (p.adopt fd).devices = p.devices := by
  unfold adopt
  split <;> rfl

theorem closeFd_of_neg {fd : Int} (h : fd < 0) : p.closeFd fd = p := by
  rw [closeFd, if_neg (by omega)]

theorem closeFd_natCast (p : Process) (n : Nat) : p.closeFd n =
    { p.setEntry n none with strays := if p.table n = some .devices then p.strays else n :: p.strays } := by
  rw [closeFd, if_pos (by omega), Int.toNat_natCast]

theorem put_closeFd (p : Process) (id : Nat) (d : Option Device) (fd : Int) :
    (p.put id d).closeFd fd = (p.closeFd fd).put id d := by
  unfold closeFd
  split <;> rfl

theorem destroy_eq (hd : p.devices id = some d) : p.destroy id = (p.closeFd d.fd).put id none := by
  rw [destroy, hd]

theorem close_eq (hd : p.devices id = some d) :
    p.close id = (p.closeFd d.fd).put id (some { d with fd := -1 }) := by
  rw [close, hd]
  exact put_closeFd _ _ _ _

theorem setFd_eq (hd : p.devices id = some d) {fd : Int} : p.setFd id fd = p.put id (some { d with fd }) := by
  rw [setFd, hd]

/-- An object that holds nothing comes, goes or changes. -/
theorem Owned.put (h : p.Owned) (hid : p.holds id = none) {d : Option Device}
    (hd : d.bind Device.descriptor = none) : (p.put id d).Owned where
  owns := by
    rw [holds_put, hd, opened_put]
    exact (h.owns.forget_iff id).mpr hid
  strays := h.strays

theorem Owned.setEntry (h : p.Owned) {e : Option Origin} (he : e ≠ some .devices)
    (hn : p.table n ≠ some .devices) : (p.setEntry n e).Owned where
  owns := by
    rw [opened_setEntry he hn]
    exact h.owns
  strays := h.strays

/-- A device closes what it holds, and holds nothing from then on. -/
theorem Owned.release (h : p.Owned) (hd : p.devices id = some d) {new : Option Device}
    (hnew : new.bind Device.descriptor = none) : ((p.closeFd d.fd).put id new).Owned := by
  have hholds := holds_of_device hd
  by_cases hfd : d.fd < 0
  · rw [closeFd_of_neg hfd]
    rw [Device.descriptor_of_neg hfd] at hholds
    exact h.put hholds hnew
  · obtain ⟨n, hn⟩ : ∃ n : Nat, d.fd = n := ⟨d.fd.toNat, by omega⟩
    rw [Device.descriptor_eq_some.mpr hn] at hholds
    have hopen : p.table n = some .devices := h.owns.live_of_holds hholds
    rw [hn, closeFd_natCast, if_pos hopen]
    refine ⟨?_, h.strays⟩
    rw [holds_put, hnew]
    apply (h.owns.drop_iff id).mpr
    intro m
    rw [hholds, ne_eq, Option.some.injEq]
    exact mem_opened_setEntry (by simp) m

/-- A free descriptor goes to a device: this is sound when it held nothing. -/
theorem Owned.acquire_iff (h : p.Owned) (hn : p.table n ≠ some .devices) {d : Device} (hd : d.descriptor = some n) :
    ((p.setEntry n (some .devices)).put id (some d)).Owned ↔ p.holds id = none := by
  have howns := h.owns.acquire_iff id hn
  constructor
  · intro h'
    apply howns.mp
    have := h'.owns
    rwa [holds_put, opened_put, holds_setEntry, opened_setEntry_devices, Option.bind_some, hd] at this
  · intro hid
    refine ⟨?_, h.strays⟩
    rw [holds_put, opened_put, holds_setEntry, opened_setEntry_devices, Option.bind_some, hd]
    exact howns.mpr hid

/-- What a device holds goes to another one: this is sound when that held nothing. -/
theorem Owned.take_iff (h : p.Owned) (hd : p.devices other = some d) (hne : other ≠ id) :
    (p.take id other d).Owned ↔ p.holds id = none := by
  have howns := h.owns.transfer_iff hne
  have hholds : (p.take id other d).holds =
      Function.update (Function.update p.holds other none) id (p.holds other) := by
    rw [take, holds_put, holds_put, holds_of_device hd]
    rfl
  constructor
  · intro h'
    apply howns.mp
    rw [← hholds]
    exact h'.owns
  · intro hid
    refine ⟨?_, h.strays⟩
    rw [hholds]
    exact howns.mpr hid

theorem openFile_iff (h : p.Owned) (hd : p.devices id = some d) {call : Syscall}
    (hcall : call.result = -1 ∨ ∃ n : Nat, call.result = n ∧ p.table n = none) :
    (p.openFile id call).1.Owned ↔ call.result = -1 ∨ p.holds id = none := by
  obtain hfail | ⟨n, hn, hfree⟩ := hcall
  · have hsame : (p.openFile id call).1 = p := by simp [openFile, openEntry, hfail]
    rw [hsame]
    exact iff_of_true h (Or.inl hfail)
  · have hres : call.result ≠ -1 := by omega
    have hopen : (p.openFile id call).1 =
        (p.setEntry n (some .devices)).put id (some { d with fd := n }) := by
      have hentry : p.openEntry call = p.setEntry n (some .devices) := by simp [openEntry, hn]
      rw [openFile, hentry, if_neg hres, hn]
      exact setFd_eq (p := p.setEntry n (some .devices)) hd
    rw [hopen, h.acquire_iff (by simp [hfree]) (Device.descriptor_eq_some.mpr rfl)]
    exact (or_iff_right hres).symm

theorem moveConstruct_owned (h : p.Owned) (hid : p.devices id = none) (hd : p.devices other = some d) :
    (p.moveConstruct id other).Owned := by
  have hne : other ≠ id := by
    intro he
    rw [he, hid] at hd
    cases hd
  rw [moveConstruct, hd]
  exact (h.take_iff hd hne).mpr (holds_of_not_live hid)

theorem moveAssign_iff (h : p.Owned) {e : Device} (hid : p.devices id = some e) (hd : p.devices other = some d) :
    (p.moveAssign id other).Owned ↔ id = other ∨ p.holds id = none := by
  by_cases heq : id = other
  · rw [moveAssign, if_pos heq]
    exact iff_of_true h (Or.inl heq)
  · rw [moveAssign, if_neg heq, hid, hd]
    show (p.take id other d).Owned ↔ _
    rw [h.take_iff hd (Ne.symm heq)]
    exact (or_iff_right heq).symm

theorem adopt_of_open (hn : (p.table n).isSome) : p.adopt n = p.setEntry n (some .devices) := by
  rw [adopt, if_pos ⟨by omega, by rwa [Int.toNat_natCast]⟩, Int.toNat_natCast]

theorem adopt_of_not_open {fd : Int} (h : ¬ (0 ≤ fd ∧ (p.table fd.toNat).isSome)) : p.adopt fd = p := if_neg h

theorem ioDeviceOf_destroy (hid : p.devices id = none) (type : DeviceType) (fd : Int) :
    (p.ioDeviceOf id type fd).destroy id = (p.adopt fd).closeFd fd := by
  have hnew : (p.ioDeviceOf id type fd).devices id = some ⟨type, fd⟩ := Function.update_self ..
  rw [destroy_eq hnew, ioDeviceOf, put_closeFd]
  have hback : Function.update ((p.adopt fd).closeFd fd).devices id none = ((p.adopt fd).closeFd fd).devices := by
    apply Function.update_eq_self_iff.mpr
    rw [devices_closeFd, devices_adopt, hid]
  unfold put
  rw [Function.update_idem, hback]

theorem closeFd_adopt_of_open (hn : (p.table n).isSome) : (p.adopt n).closeFd n = p.setEntry n none := by
  rw [adopt_of_open hn, closeFd_natCast, if_pos (by simp [setEntry])]
  unfold setEntry
  rw [Function.update_idem]

/-- A descriptor is taken and closed at once. -/
theorem closeFd_adopt_iff (h : p.Owned) (n : Nat) :
    ((p.adopt n).closeFd n).Owned ↔ p.table n = some .elsewhere := by
  cases hn : p.table n with
  | none =>
    -- it was not open: the call is counted among the strays
    rw [adopt_of_not_open (by simp [hn]), closeFd_natCast]
    refine iff_of_false ?_ (by simp)
    intro h'
    have hstrays := h'.strays
    simp [hn] at hstrays
  | some origin =>
    rw [closeFd_adopt_of_open (by simp [hn])]
    cases origin with
    | elsewhere => exact iff_of_true (h.setEntry (by simp) (by simp [hn])) rfl
    | devices =>
      -- a device still holds it
      refine iff_of_false ?_ (by simp)
      intro h'
      obtain ⟨i, hi⟩ := (h.owns.held n).mp hn
      have hopen := h'.owns.live_of_holds hi
      exact ((mem_opened_setEntry (by simp) n).mp hopen).2 rfl

theorem ioDeviceOf_iff (h : p.Owned) (hid : p.devices id = none) (hn : (p.table n).isSome) (type : DeviceType) :
    (p.ioDeviceOf id type n).Owned ↔ p.table n = some .elsewhere := by
  rw [ioDeviceOf, adopt_of_open hn]
  have hfd : Device.descriptor ⟨type, n⟩ = some n := Device.descriptor_eq_some.mpr rfl
  by_cases hdevices : p.table n = some .devices
  · -- two devices would hold it
    refine iff_of_false ?_ (by simp [hdevices])
    intro h'
    obtain ⟨i, hi⟩ := (h.owns.held n).mp hdevices
    have hne : i ≠ id := by
      intro he
      rw [he, holds_of_not_live hid] at hi
      cases hi
    apply hne
    apply h'.owns.unique i id n
    · rw [holds_put, Function.update_of_ne hne]
      exact hi
    · rw [holds_put, Function.update_self]
      exact hfd
  · refine iff_of_true ((h.acquire_iff hdevices hfd).mpr (holds_of_not_live hid)) ?_
    obtain ⟨origin, horigin⟩ := Option.isSome_iff_exists.mp hn
    cases origin with
    | devices => exact absurd horigin hdevices
    | elsewhere => exact horigin

theorem tcpSocketOf_iff (h : p.Owned) (hid : p.devices id = none) {fd : Int} {call : Syscall}
    (hcall : call.result = -1 ∨ call.result = 0 ∧ 0 ≤ fd ∧ (p.table fd.toNat).isSome) (endpoint : EndpointV4) :
    (p.tcpSocketOf id fd endpoint call).1.Owned ↔ (0 ≤ fd → p.table fd.toNat = some .elsewhere) := by
  obtain hfail | ⟨hres, hfd, hopen⟩ := hcall
  · rw [tcpSocketOf, if_pos hfail]
    show ((p.ioDeviceOf id _ fd).destroy id).Owned ↔ _
    rw [ioDeviceOf_destroy hid]
    by_cases hfd : 0 ≤ fd
    · obtain ⟨n, rfl⟩ := Int.eq_ofNat_of_zero_le hfd
      rw [closeFd_adopt_iff h, Int.toNat_natCast]
      exact (imp_iff_right hfd).symm
    · rw [adopt_of_not_open (fun hand => hfd hand.1), closeFd_of_neg (by omega)]
      exact iff_of_true h (fun hle => absurd hle hfd)
  · rw [tcpSocketOf, if_neg (by omega)]
    show (p.ioDeviceOf id _ fd).Owned ↔ _
    obtain ⟨n, rfl⟩ := Int.eq_ofNat_of_zero_le hfd
    rw [Int.toNat_natCast] at hopen ⊢
    rw [ioDeviceOf_iff h hid hopen]
    exact (imp_iff_right hfd).symm

/-- An operation that throws leaves no object behind, and every device holds what it held. -/
theorem devices_of_throws {op : Operation} (hop : p.Possible op) {e : LinuxError}
    (hthrows : (p.perform op).2 = some e) : (p.step op).devices = p.devices := by
  cases op with
  | openFile id call =>
    by_cases hfail : call.result = -1
    · simp [step, perform, openFile, openEntry, hfail]
    · simp [perform, openFile, hfail] at hthrows
  | tcpSocketOf id fd endpoint call =>
    by_cases hfail : call.result = -1
    · have hstep : p.step (.tcpSocketOf id fd endpoint call) = (p.adopt fd).closeFd fd := by
        rw [← ioDeviceOf_destroy hop.1 (.tcpSocket endpoint) fd]
        simp [step, perform, tcpSocketOf, hfail]
      rw [hstep, devices_closeFd, devices_adopt]
    · simp [perform, tcpSocketOf, hfail] at hthrows
  | _ => cases hthrows

theorem step_iff (h : p.Owned) {op : Operation} (hop : p.Possible op) : (p.step op).Owned ↔ p.Disciplined op := by
  cases op with
  | ioDevice id => exact iff_of_true (h.put (holds_of_not_live hop) rfl) trivial
  | fileDevice id => exact iff_of_true (h.put (holds_of_not_live hop) rfl) trivial
  | tcpSocket id =>
    refine iff_of_true ?_ trivial
    show (p.ioDeviceOf id _ (-1)).Owned
    rw [ioDeviceOf, adopt_of_not_open (by simp)]
    exact h.put (holds_of_not_live hop) rfl
  | tcpSocketOf id fd endpoint call => exact tcpSocketOf_iff h hop.1 hop.2 endpoint
  | openFile id call =>
    obtain ⟨⟨d, hd, -⟩, hcall⟩ := hop
    exact openFile_iff h hd hcall
  | moveConstruct id other =>
    obtain ⟨hid, d, hd, -⟩ := hop
    exact iff_of_true (moveConstruct_owned h hid hd) trivial
  | moveAssign id other =>
    obtain ⟨d, e, hid, hd, -⟩ := hop
    exact moveAssign_iff h hid hd
  | close id =>
    obtain ⟨d, hd⟩ := hop
    refine iff_of_true ?_ trivial
    show (p.close id).Owned
    rw [close_eq hd]
    exact h.release hd rfl
  | destroy id =>
    obtain ⟨d, hd⟩ := hop
    refine iff_of_true ?_ trivial
    show (p.destroy id).Owned
    rw [destroy_eq hd]
    exact h.release hd rfl
  | openElsewhere n =>
    have hn : p.table n = none := hop
    exact iff_of_true (h.setEntry (by simp) (by simp [hn])) trivial
  | closeElsewhere n =>
    have hn : p.table n = some .elsewhere := hop
    exact iff_of_true (h.setEntry (by simp) (by simp [hn])) trivial

theorem owned_start (inherited : Nat → Bool) : (start inherited).Owned where
  owns := by
    have hopened : (start inherited).opened = ∅ := by
      ext n
      rw [mem_opened, start]
      cases inherited n <;> simp
    rw [hopened]
    exact Owns.nothing
  strays := rfl

/-- The devices own the open descriptors all along a run exactly when none of its steps overwrites a
valid descriptor, or takes one that is not free to be taken. -/
theorem owned_iff (inherited : Nat → Bool) (ops : List Operation)
    (h : Runs.AllMeet step Possible (start inherited) ops) :
    (∀ before, before <+: ops → (Runs.run step (start inherited) before).Owned) ↔
      Runs.AllMeet step Disciplined (start inherited) ops := by
  have hiff : ∀ p op, Owned p → Possible p op → (Owned (step p op) ↔ Disciplined p op) := by
    intro p op hp hop
    exact step_iff hp hop
  exact h.invariant_iff hiff (owned_start inherited)

theorem owned_iff_moved :
    (∀ before, before <+: [.fileDevice 0, .openFile 0 ⟨3, 0⟩, .fileDevice 1, .moveAssign 1 0, .openElsewhere 4,
        .tcpSocketOf 2 4 {} ⟨0, 0⟩, .moveConstruct 3 2, .close 1, .destroy 0, .destroy 3] →
      (Runs.run step (start (· < 3)) before).Owned) ↔
    Runs.AllMeet step Disciplined (start (· < 3)) [.fileDevice 0, .openFile 0 ⟨3, 0⟩, .fileDevice 1,
      .moveAssign 1 0, .openElsewhere 4, .tcpSocketOf 2 4 {} ⟨0, 0⟩, .moveConstruct 3 2, .close 1, .destroy 0,
      .destroy 3] := by
  apply owned_iff
  have hmoves : DeviceType.fileDevice.MovesTo .fileDevice := trivial
  refine ⟨rfl, ⟨⟨_, rfl, rfl⟩, Or.inr ⟨3, rfl, rfl⟩⟩, rfl, ⟨_, _, rfl, rfl, hmoves⟩, rfl,
    ⟨rfl, Or.inr ⟨rfl, by decide, rfl⟩⟩, ⟨rfl, _, rfl, trivial⟩, ⟨_, rfl⟩, ⟨_, rfl⟩, ⟨_, rfl⟩, trivial⟩

/-- The descriptor of a device that is moved into stays open, and nothing holds it. -/
theorem moveAssign_leaks : ¬ ∀ inherited ops, Runs.AllMeet step Possible (start inherited) ops →
    ∀ before, before <+: ops → (Runs.run step (start inherited) before).Owned := by
  intro hall
  have hpossible : Runs.AllMeet step Possible (start fun _ => false)
      [.fileDevice 0, .openFile 0 ⟨3, 0⟩, .fileDevice 1, .openFile 1 ⟨4, 0⟩, .moveAssign 0 1] :=
    ⟨rfl, ⟨⟨_, rfl, rfl⟩, Or.inr ⟨3, rfl, rfl⟩⟩, rfl, ⟨⟨_, rfl, rfl⟩, Or.inr ⟨4, rfl, rfl⟩⟩,
      ⟨_, _, rfl, rfl, trivial⟩, trivial⟩
  have howned := hall _ _ hpossible _ (List.prefix_refl _)
  obtain ⟨i, hi⟩ := (howned.owns.held 3).mp rfl
  rcases i with _ | _ | i
  · cases hi
  · cases hi
  · cases hi

end Ownership

end Process

end TinDox
