/-
What a failed construction leaves behind (`UDPSocket.cc`, `CommHandler.h`, `Thread.h`,
`InetAddress.cc`, `DistributedLock.cc`).

The constructor of an instance may have to construct the handler, and with it a socket and
a thread, and any of the system calls on the way may fail.  Each constructor cleans up on its own
before it throws, and the destructors of the bases that have been constructed run after it.  Mostly
nothing is left, but a failed `setsockopt` closes the descriptor in a field that has not been
assigned, a failed timeout closes the socket twice, and a failed address lookup leaves the receiver
thread running (`leaves_nothing_iff`).
-/
import DistLock.Handler.Shared
import DistLock.Lib.Unwind

namespace DistLock

open Lib (Ctor)
open Lib.Ctor (effect check acquire holding rethrow)

/-- An exception: a `SocketErrorException`, an `Exception`, or a pointer to one. -/
inductive Thrown
  | socketError (error : String)
  | exception (error : String)
  | pointer (error : String)
  deriving DecidableEq

namespace Thrown

/-- `SocketErrorException(std::string what)`. -/
def ofSocket (what : String) : Thrown := socketError ("Socket Error:" ++ what)

/-- `catch (Exception& e) { throw(e); }` throws a copy of the base class; pointers pass. -/
def again : Thrown → Thrown
  | socketError error => exception error
  | exception error => exception error
  | pointer error => pointer error

end Thrown

/-- The options that `create_socket` sets. -/
inductive SockOpt
  | dstaddr
  | reuseaddr
  | broadcast
  | rcvtimeo
  deriving DecidableEq

/-- What the system calls of one construction answer: a descriptor or a thread, or whether they
succeed.  `setTimeout` is the call of `setsockopt` in `UDPSocket::setTimeout`. -/
structure Syscalls where
  socket : Option ℤ
  setsockopt : SockOpt → Bool
  strerror : String
  bind : Bool
  attrInit : Bool
  setTimeout : Bool
  create : Option ℕ
  getaddrinfo : List UInt8 → Bool

/-- The open descriptors and running threads, the descriptors that the construction has opened and
those for which it has called `close`, the field `sockfd` of the socket under construction, and the
static variables. -/
structure World where
  fds : Finset ℤ
  threads : Finset ℕ
  opened : List ℤ
  closed : List ℤ
  sockfd : ℤ
  proc : Process

namespace World

/-- Before a construction; the field `sockfd` holds anything. -/
def start (fds : Finset ℤ) (threads : Finset ℕ) (sockfd : ℤ) (proc : Process) : World where
  fds := fds
  threads := threads
  opened := []
  closed := []
  sockfd := sockfd
  proc := proc

/-- `socket` gives a descriptor. -/
def openSocket (fd : ℤ) (W : World) : World :=
  { W with fds := insert fd W.fds, opened := W.opened ++ [fd] }

/-- `this->sockfd` is assigned. -/
def setSockfd (fd : ℤ) (W : World) : World := { W with sockfd := fd }

/-- `_close_socket(this->sockfd)`, which is also what `~UDPSocket` does. -/
def closeSockfd (W : World) : World :=
  { W with fds := W.fds.erase W.sockfd, closed := W.closed ++ [W.sockfd] }

/-- `pthread_create` gives a thread. -/
def startThread (t : ℕ) (W : World) : World := { W with threads := insert t W.threads }

/-- `~Thread` only frees mutexes, conditions and attributes. -/
def destroyThread (W : World) : World := W

/-- After a failed construction everything is as it was before, and every descriptor that was closed
was closed once and had been opened. -/
structure LeavesNothing (W W' : World) : Prop where
  fds : W'.fds = W.fds
  threads : W'.threads = W.threads
  once : W'.closed.Nodup
  own : ∀ fd ∈ W'.closed, fd ∈ W'.opened
  sCh : W'.proc.sCh = W.proc.sCh
  sChCount : W'.proc.sChCount = W.proc.sChCount

end World

/-- The points at which a construction can fail. -/
inductive FailurePoint
  | socket
  | option (o : SockOpt)
  | bind
  | attr
  | timeout
  | thread
  | lookup
  deriving DecidableEq

namespace Syscalls

variable (C : Syscalls)

/-- The exception after a failed call on the socket. -/
def errno : Thrown := .ofSocket C.strerror

/-- `UDPSocket::create_socket`. -/
def createSocket : Ctor Thrown World ℤ := do
  let fd ← acquire C.socket (.ofSocket "could not open the socket")
  effect (World.openSocket fd)
  check (C.setsockopt .dstaddr) World.closeSockfd C.errno
  check (C.setsockopt .reuseaddr) World.closeSockfd C.errno
  check (C.setsockopt .broadcast) World.closeSockfd C.errno
  check (C.setsockopt .rcvtimeo) World.closeSockfd C.errno
  return fd

/-- `UDPSocket::UDPSocket(int port)`. -/
def udpSocket : Ctor Thrown World Unit := do
  let fd ← rethrow Thrown.again C.createSocket
  effect (World.setSockfd fd)
  check C.bind World.closeSockfd C.errno

/-- `UDPSocket::setTimeout`. -/
def udpSetTimeout : Ctor Thrown World Unit := check C.setTimeout World.closeSockfd C.errno

/-- `Thread::Thread`. -/
def thread : Ctor Thrown World Unit :=
  check C.attrInit id (.pointer "could not initialize the pthread attr")

/-- `Thread::start`. -/
def threadStart : Ctor Thrown World Unit := do
  let t ← acquire C.create (.pointer "Unable to create Thread")
  effect (World.startThread t)

/-- `InetAddress::InetAddress(const char*)`: an empty string is not looked up. -/
def inetAddress (addr : List UInt8) : Ctor Thrown World Unit :=
  check (addr = [] ∨ C.getaddrinfo addr) id (.exception "Unknown host Address")

/-- `CommHandler::CommHandler`: the bases, and then the body. -/
def commHandler (addr : List UInt8) : Ctor Thrown World Unit := do
  C.udpSocket
  holding World.closeSockfd do
    C.thread
    holding World.destroyThread do
      C.udpSetTimeout
      C.threadStart
      rethrow Thrown.again (C.inetAddress addr)

/-- `DistributedLock::getCommHandlerInstance`, as far as it may throw. -/
def getCommHandlerInstance (addr : List UInt8) : Ctor Thrown World Unit := fun W =>
  match W.proc.sCh with
  | some _ => effect id W
  | none => rethrow Thrown.again (C.commHandler addr) W

/-- `DistributedLock::DistributedLock` for the instance `dl`: once there is a handler, nothing
throws. -/
def distributedLock (addr : List UInt8) (dl : ℕ) : Ctor Thrown World Unit := do
  rethrow Thrown.again (C.getCommHandlerInstance addr)
  effect fun W => { W with proc := W.proc.construct dl true }

/-- The call fails at this point, if it is made. -/
def Fails (addr : List UInt8) : FailurePoint → Bool
  | .socket => C.socket.isNone
  | .option o => !C.setsockopt o
  | .bind => !C.bind
  | .attr => !C.attrInit
  | .timeout => !C.setTimeout
  | .thread => C.create.isNone
  | .lookup => !decide (addr = [] ∨ C.getaddrinfo addr)

/-- The first call that fails. -/
def firstFailure (addr : List UInt8) : Option FailurePoint :=
  [.socket, .option .dstaddr, .option .reuseaddr, .option .broadcast, .option .rcvtimeo, .bind,
    .attr, .timeout, .thread, .lookup].find? (C.Fails addr)

/-- A failure at this point leaves nothing behind; `sockfd` is what the field holds before the
construction. -/
def Harmless (sockfd : ℤ) : FailurePoint → Prop
  | .socket | .bind | .attr | .thread => True
  | .option _ => C.socket = some sockfd
  | .timeout | .lookup => False

/-- The system gives descriptors and threads that are not in use. -/
structure Fresh (fds : Finset ℤ) (threads : Finset ℕ) : Prop where
  socket : ∀ fd ∈ C.socket, fd ∉ fds
  create : ∀ t ∈ C.create, t ∉ threads

/-- The world that is left behind by a failure at a point. -/
inductive Leaves (W : World) : FailurePoint → World → Prop
  | socket : Leaves W .socket W
  | option {fd : ℤ} (hfd : C.socket = some fd) (o : SockOpt) :
    Leaves W (.option o) (W.openSocket fd).closeSockfd
  | bind {fd : ℤ} (hfd : C.socket = some fd) :
    Leaves W .bind ((W.openSocket fd).setSockfd fd).closeSockfd
  | attr {fd : ℤ} (hfd : C.socket = some fd) :
    Leaves W .attr ((W.openSocket fd).setSockfd fd).closeSockfd
  | timeout {fd : ℤ} (hfd : C.socket = some fd) :
    Leaves W .timeout ((W.openSocket fd).setSockfd fd).closeSockfd.closeSockfd
  | thread {fd : ℤ} (hfd : C.socket = some fd) :
    Leaves W .thread ((W.openSocket fd).setSockfd fd).closeSockfd
  | lookup {fd : ℤ} {t : ℕ} (hfd : C.socket = some fd) (ht : C.create = some t) :
    Leaves W .lookup (((W.openSocket fd).setSockfd fd).startThread t).closeSockfd

variable {C} {addr : List UInt8} {dl : ℕ} {W W' : World} {e : Thrown} {fd : ℤ} {u : Unit}

/-! ### Where the constructors throw -/

lemma returns_createSocket (h : C.createSocket.Returns W fd W') :
    C.socket = some fd ∧ (∀ o, C.setsockopt o = true) ∧ W' = W.openSocket fd := by
  simp only [createSocket, Ctor.returns_bind_iff, Ctor.returns_acquire_iff,
    Ctor.returns_effect_iff, Ctor.returns_check_iff, Ctor.returns_pure_iff] at h
  obtain ⟨_, _, ⟨hfd, rfl⟩, _, _, rfl, _, _, ⟨h₁, rfl⟩, _, _, ⟨h₂, rfl⟩, _, _, ⟨h₃, rfl⟩, _, _,
    ⟨h₄, rfl⟩, rfl, rfl⟩ := h
  refine ⟨hfd, fun o => ?_, rfl⟩
  cases o <;> assumption

/-- The field `sockfd` is closed before it is assigned. -/
lemma throws_createSocket (h : C.createSocket.Throws W e W') :
    ∃ p, C.firstFailure addr = some p ∧ C.Leaves W p W' := by
  simp only [createSocket, Ctor.throws_bind_iff, Ctor.returns_acquire_iff,
    Ctor.throws_acquire_iff, Ctor.returns_effect_iff, Ctor.not_throws_effect,
    Ctor.returns_check_iff, Ctor.throws_check_iff, Ctor.not_throws_pure] at h
  obtain ⟨hnone, -, rfl⟩ | ⟨fd, _, ⟨hfd, rfl⟩, h⟩ := h
  · exact ⟨.socket, by simp [firstFailure, Fails, hnone], .socket⟩
  obtain h | ⟨_, _, rfl, h⟩ := h
  · exact h.elim
  obtain ⟨h₁, -, rfl⟩ | ⟨_, _, ⟨h₁, rfl⟩, h⟩ := h
  · exact ⟨_, by simp [firstFailure, Fails, hfd, h₁], .option hfd .dstaddr⟩
  obtain ⟨h₂, -, rfl⟩ | ⟨_, _, ⟨h₂, rfl⟩, h⟩ := h
  · exact ⟨_, by simp [firstFailure, Fails, hfd, h₁, h₂], .option hfd .reuseaddr⟩
  obtain ⟨h₃, -, rfl⟩ | ⟨_, _, ⟨h₃, rfl⟩, h⟩ := h
  · exact ⟨_, by simp [firstFailure, Fails, hfd, h₁, h₂, h₃], .option hfd .broadcast⟩
  obtain ⟨h₄, -, rfl⟩ | ⟨_, _, -, h⟩ := h
  · exact ⟨_, by simp [firstFailure, Fails, hfd, h₁, h₂, h₃, h₄], .option hfd .rcvtimeo⟩
  · exact h.elim

lemma returns_udpSocket (h : C.udpSocket.Returns W u W') :
    ∃ fd, C.socket = some fd ∧ (∀ o, C.setsockopt o = true) ∧ C.bind = true ∧
      W' = (W.openSocket fd).setSockfd fd := by
  simp only [udpSocket, Ctor.returns_bind_iff, Ctor.returns_rethrow_iff, Ctor.returns_effect_iff,
    Ctor.returns_check_iff] at h
  obtain ⟨fd, W₁, hcreate, _, _, rfl, hbind, rfl⟩ := h
  obtain ⟨hfd, hopts, rfl⟩ := returns_createSocket hcreate
  exact ⟨fd, hfd, hopts, hbind, rfl⟩

lemma throws_udpSocket (h : C.udpSocket.Throws W e W') :
    ∃ p, C.firstFailure addr = some p ∧ C.Leaves W p W' := by
  simp only [udpSocket, Ctor.throws_bind_iff, Ctor.throws_rethrow_iff, Ctor.returns_rethrow_iff,
    Ctor.returns_effect_iff, Ctor.not_throws_effect, Ctor.throws_check_iff] at h
  obtain ⟨e', hcreate, -⟩ | ⟨fd, W₁, hcreate, h | ⟨_, _, rfl, hbind, -, rfl⟩⟩ := h
  · exact throws_createSocket hcreate
  · exact h.elim
  · obtain ⟨hfd, hopts, rfl⟩ := returns_createSocket hcreate
    exact ⟨.bind, by simp [firstFailure, Fails, hfd, hopts, hbind], .bind hfd⟩

/-- `~UDPSocket` runs for every failure after the socket has been constructed. -/
lemma throws_commHandler (h : (C.commHandler addr).Throws W e W') :
    ∃ p, C.firstFailure addr = some p ∧ C.Leaves W p W' := by
  rw [commHandler, Ctor.throws_bind_iff] at h
  obtain hsocket | ⟨_, W₁, hsocket, h⟩ := h
  · exact throws_udpSocket hsocket
  obtain ⟨fd, hfd, hopts, hbind, rfl⟩ := returns_udpSocket hsocket
  simp only [thread, udpSetTimeout, threadStart, inetAddress, Ctor.throws_holding_iff,
    Ctor.throws_bind_iff, Ctor.returns_bind_iff, Ctor.throws_check_iff, Ctor.returns_check_iff,
    Ctor.throws_acquire_iff, Ctor.returns_acquire_iff, Ctor.not_throws_effect,
    Ctor.returns_effect_iff, Ctor.throws_rethrow_iff] at h
  obtain ⟨W₂, ⟨hattr, -, rfl⟩ | ⟨_, _, ⟨hattr, rfl⟩, W₃, h, rfl⟩, rfl⟩ := h
  · exact ⟨.attr, by simp [firstFailure, Fails, hfd, hopts, hbind, hattr], .attr hfd⟩
  obtain ⟨htime, -, rfl⟩ | ⟨_, _, ⟨htime, rfl⟩, h⟩ := h
  · exact ⟨.timeout, by simp [firstFailure, Fails, hfd, hopts, hbind, hattr, htime],
      .timeout hfd⟩
  obtain (⟨hnone, -, rfl⟩ | ⟨t, _, ⟨ht, rfl⟩, h⟩) |
    ⟨_, _, ⟨t, _, ⟨ht, rfl⟩, rfl⟩, e', ⟨hlookup, -, rfl⟩, -⟩ := h
  · exact ⟨.thread, by simp [firstFailure, Fails, hfd, hopts, hbind, hattr, htime, hnone],
      .thread hfd⟩
  · exact h.elim
  · have hl : ¬ addr = [] ∧ C.getaddrinfo addr = false := by simpa using hlookup
    exact ⟨.lookup, by simp [firstFailure, Fails, hfd, hopts, hbind, hattr, htime, ht, hl],
      .lookup hfd ht⟩

/-- An instance can only fail to be constructed together with its handler. -/
lemma throws_distributedLock (h : (C.distributedLock addr dl).Throws W e W') :
    W.proc.sCh = none ∧ ∃ p, C.firstFailure addr = some p ∧ C.Leaves W p W' := by
  simp only [distributedLock, Ctor.throws_bind_iff, Ctor.throws_rethrow_iff,
    Ctor.not_throws_effect, and_false, exists_false, or_false] at h
  obtain ⟨e', h, -⟩ := h
  rw [Ctor.Throws, Ctor.exec, getCommHandlerInstance] at h
  cases hsCh : W.proc.sCh with
  | some ch =>
    rw [hsCh] at h
    cases h
  | none =>
    rw [hsCh] at h
    obtain ⟨e'', h, -⟩ := Ctor.throws_rethrow_iff.mp h
    exact ⟨rfl, throws_commHandler h⟩

/-! ### The shared handler -/

lemma Leaves.proc_eq {p : FailurePoint} (h : C.Leaves W p W') : W'.proc = W.proc := by
  cases h <;> rfl

/-- The construction of a handler does not touch the static variables. -/
lemma proc_of_returns_commHandler (h : (C.commHandler addr).Returns W u W') :
    W'.proc = W.proc := by
  simp only [commHandler, thread, udpSetTimeout, threadStart, inetAddress, Ctor.returns_bind_iff,
    Ctor.returns_holding_iff, Ctor.returns_check_iff, Ctor.returns_acquire_iff,
    Ctor.returns_effect_iff, Ctor.returns_rethrow_iff] at h
  obtain ⟨_, W₁, hsocket, _, _, ⟨-, rfl⟩, _, _, ⟨-, rfl⟩, _, _, ⟨t, _, ⟨-, rfl⟩, rfl⟩, -, rfl⟩ := h
  obtain ⟨fd, -, -, -, rfl⟩ := returns_udpSocket hsocket
  rfl

/-- **The static variables and the instances** are as in the model of the shared handler, whether
the construction returns or throws. -/
theorem distributedLock_proc :
    ((C.distributedLock addr dl).Returns W u W' → W'.proc = W.proc.construct dl true) ∧
      ((C.distributedLock addr dl).Throws W e W' → W'.proc = W.proc.construct dl false) := by
  constructor
  · intro h
    simp only [distributedLock, Ctor.returns_bind_iff, Ctor.returns_rethrow_iff,
      Ctor.returns_effect_iff] at h
    obtain ⟨_, W₁, h, rfl⟩ := h
    rw [Ctor.Returns, Ctor.exec, getCommHandlerInstance] at h
    cases hsCh : W.proc.sCh with
    | some ch =>
      rw [hsCh] at h
      cases h
      rfl
    | none =>
      rw [hsCh] at h
      have hproc := proc_of_returns_commHandler (Ctor.returns_rethrow_iff.mp h)
      show W₁.proc.construct dl true = _
      rw [hproc]
  · intro h
    obtain ⟨hsCh, p, -, hleaves⟩ := throws_distributedLock h
    rw [hleaves.proc_eq, Process.construct, Process.getCommHandlerInstance, hsCh]
    rfl

/-! ### What is left behind -/

section leaves

variable {fds : Finset ℤ} {threads : Finset ℕ} {sockfd : ℤ} {P : Process}

/-- A socket that is closed through a field with its own descriptor is gone. -/
lemma leavesNothing_of_closed (hfd : fd ∉ fds) :
    (World.start fds threads sockfd P).LeavesNothing
      ((((World.start fds threads sockfd P).openSocket fd).setSockfd fd).closeSockfd) where
  fds := Finset.erase_insert hfd
  threads := rfl
  once := List.nodup_singleton fd
  own := fun _ h => h
  sCh := rfl
  sChCount := rfl

/-- Closed through any other descriptor, it stays open. -/
lemma leavesNothing_option_iff (hfd : fd ∉ fds) :
    (World.start fds threads sockfd P).LeavesNothing
      ((World.start fds threads sockfd P).openSocket fd).closeSockfd ↔ fd = sockfd := by
  constructor
  · intro h
    by_contra hne
    have hmem : fd ∈ (insert fd fds).erase sockfd :=
      Finset.mem_erase.mpr ⟨hne, Finset.mem_insert_self fd fds⟩
    have hfds : (insert fd fds).erase sockfd = fds := h.fds
    exact hfd (hfds ▸ hmem)
  · rintro rfl
    exact leavesNothing_of_closed hfd

/-- **A failed construction leaves nothing behind** if and only if the first call that fails is
`socket`, `bind` or one of those that make the thread, or it is a `setsockopt` of `create_socket`
and the field `sockfd` happens to hold the new descriptor. -/
theorem leaves_nothing_iff (hfresh : C.Fresh fds threads)
    (h : (C.distributedLock addr dl).Throws (World.start fds threads sockfd P) e W') :
    (World.start fds threads sockfd P).LeavesNothing W' ↔
      ∀ p, C.firstFailure addr = some p → C.Harmless sockfd p := by
  obtain ⟨-, p, hp, hleaves⟩ := throws_distributedLock h
  have hpoint : (∀ p, C.firstFailure addr = some p → C.Harmless sockfd p) ↔
      C.Harmless sockfd p := by
    refine ⟨fun hall => hall p hp, fun hp' q hq => ?_⟩
    rwa [Option.some.inj (hq.symm.trans hp)]
  rw [hpoint]
  cases hleaves with
  | socket => exact iff_of_true ⟨rfl, rfl, List.nodup_nil, nofun, rfl, rfl⟩ trivial
  | option hfd o =>
    rw [leavesNothing_option_iff (hfresh.socket _ hfd), Harmless, hfd, Option.some_inj]
  | bind hfd | attr hfd | thread hfd =>
    exact iff_of_true (leavesNothing_of_closed (hfresh.socket _ hfd)) trivial
  | @timeout fd hfd =>
    -- `setTimeout` has closed the socket, and `~UDPSocket` closes it again
    refine iff_of_false (fun hnothing => ?_) id
    have honce : [fd, fd].Nodup := hnothing.once
    simp at honce
  | @lookup fd t hfd ht =>
    refine iff_of_false (fun hnothing => ?_) id
    have hthreads : insert t threads = threads := hnothing.threads
    exact hfresh.create t ht (hthreads ▸ Finset.mem_insert_self t threads)

/-- All calls succeed. -/
def working : Syscalls where
  socket := some 3
  setsockopt := fun _ => true
  strerror := ""
  bind := true
  attrInit := true
  setTimeout := true
  create := some 1
  getaddrinfo := fun _ => true

/-- If the socket cannot be bound, nothing is left. -/
theorem leaves_nothing_bind :
    (World.start {0, 1, 2} {0} 0 Process.start).LeavesNothing
      (({ working with bind := false }.distributedLock [120] 1).exec
        (World.start {0, 1, 2} {0} 0 Process.start)).2 := by
  have hfresh : Fresh { working with bind := false } {0, 1, 2} {0} :=
    ⟨by rintro fd ⟨⟩; decide, by rintro t ⟨⟩; decide⟩
  have hthrows : ({ working with bind := false }.distributedLock [120] 1).Throws
      (World.start {0, 1, 2} {0} 0 Process.start) (.exception "Socket Error:")
      (({ working with bind := false }.distributedLock [120] 1).exec
        (World.start {0, 1, 2} {0} 0 Process.start)).2 := rfl
  refine (leaves_nothing_iff hfresh hthrows).mpr fun p hp => ?_
  have hbind : firstFailure { working with bind := false } [120] = some .bind := by decide
  obtain rfl := Option.some.inj (hbind.symm.trans hp)
  trivial

/-- With the field `sockfd` at zero, the construction throws and leaves something. -/
def LeavesSomething (C : Syscalls) : Prop :=
  ∃ e W', (C.distributedLock [120] 1).Throws (World.start {0, 1, 2} {0} 0 Process.start) e W' ∧
    ¬ (World.start {0, 1, 2} {0} 0 Process.start).LeavesNothing W'

/-- An option that cannot be set closes the standard input; a timeout that cannot be set closes
the socket twice, and an unknown address leaves the thread. -/
theorem not_leaves_nothing :
    LeavesSomething { working with setsockopt := fun _ => false } ∧
      LeavesSomething { working with setTimeout := false } ∧
      LeavesSomething { working with getaddrinfo := fun _ => false } := by
  refine ⟨⟨_, _, rfl, fun h => ?_⟩, ⟨_, _, rfl, fun h => ?_⟩, ⟨_, _, rfl, fun h => ?_⟩⟩
  · exact absurd h.fds (by decide)
  · exact absurd h.once (by decide)
  · exact absurd h.threads (by decide)

end leaves

end Syscalls
end DistLock
