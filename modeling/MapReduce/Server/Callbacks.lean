import MapReduce.Server.Client

/-! The callbacks of `server.c`, for any application above them.

An application gets `on_connect`, `on_disconnect`, `on_message` and
`on_periodic`. A message handler may send one reply on its own connection, and
that send can itself remove the client before the handler goes on. `none` is an
execution without defined behaviour, or an outcome the kernel does not produce.

`notices` and `sessions` are not part of `server_t`: they record which
connections the application was told of, and what each connection has received
and delivered.
-/

set_option autoImplicit false

namespace MapReduce

/-- A `read` on a non-blocking socket; `closed` is a result of 0. -/
inductive SocketRead where
  | data (chunk : Bytes)
  | closed
  | again
  | hardError
  deriving DecidableEq, Repr

/-- What `accept` and the checks behind it come to. A refused connection leaves no trace; the flag says
whether `el_add` could register the descriptor. -/
inductive Accept where
  | refused
  | taken (fd : Fd) (registered : Bool)
  deriving DecidableEq, Repr

/-- A message handler: it returns at once, or sends a reply and goes on with the result of the send. -/
inductive Handling (σ : Type) where
  | finish (state : σ) (ok : Bool)
  | reply (state : σ) (payload : Bytes) (resume : σ → Bool → σ × Bool)

structure App (σ ε : Type) where
  onConnect : σ → Fd → σ
  onDisconnect : σ → Fd → σ
  onMessage : σ → Fd → Bytes → ε → Option (Handling σ)
  onPeriodic : σ → Int → Int → Option σ

inductive Notice where
  | connected (fd : Fd)
  | disconnected (fd : Fd)
  deriving DecidableEq, Repr

/-- The bytes read on a connection, and the payloads handed to `on_message` with its results. -/
structure Session where
  received : Bytes
  delivered : List (Bytes × Bool)
  deriving DecidableEq, Repr

structure Server (σ : Type) where
  clients : Fd → Client
  clientsCount : Nat
  cronloops : Int
  nowMs : Int
  lastTimeoutCheckMs : Int
  clientTimeoutS : Int
  readHandlers : Fd → Bool
  writeHandlers : Fd → Bool
  stop : Bool
  app : σ
  notices : List Notice
  sessions : Fd → Session

def clientTimeoutCheckIntervalMs : Int := 100

def frontFrame (bytes : Bytes) : Framing.Front := Framing.front frameHdrSize msgMax bytes

/-- What the kernel answers to a send: the `write`, if one is made, and whether `el_add_write` could register the
descriptor, if it is called. -/
structure SendResult where
  write : SocketWrite
  registered : Bool
  deriving DecidableEq, Repr

/-- What the application and the kernel do while the messages of one event are handled, in order. -/
abbrev During (ε : Type) := Nat → ε × SendResult

namespace Server

variable {σ ε : Type}

/-- `server_init`. -/
def init (state : σ) (now clientTimeoutS : Int) : Server σ where
  clients := fun _ => .zero
  clientsCount := 0
  cronloops := 0
  nowMs := now
  lastTimeoutCheckMs := now
  clientTimeoutS := clientTimeoutS
  readHandlers := fun _ => false
  writeHandlers := fun _ => false
  stop := false
  app := state
  notices := []
  sessions := fun _ => ⟨[], []⟩

def setClient (s : Server σ) (fd : Fd) (c : Client) : Server σ :=
  { s with clients := Function.update s.clients fd c }

/-- `el_add_write(el, fd, on_write)` when it succeeds, and `el_remove_write`. -/
def watchWrite (s : Server σ) (fd : Fd) (on : Bool) : Server σ :=
  { s with writeHandlers := Function.update s.writeHandlers fd on }

/-- The `memmove` of `process_buffer`. -/
def dropFrame (s : Server σ) (fd : Fd) (size : Nat) : Server σ :=
  s.setClient fd { s.clients fd with buf := (s.clients fd).buf.drop size }

def noteReceived (s : Server σ) (fd : Fd) (chunk : Bytes) : Server σ :=
  let session := { s.sessions fd with received := (s.sessions fd).received ++ chunk }
  { s with sessions := Function.update s.sessions fd session }

def noteDelivered (s : Server σ) (fd : Fd) (payload : Bytes) (ok : Bool) : Server σ :=
  let session := { s.sessions fd with delivered := (s.sessions fd).delivered ++ [(payload, ok)] }
  { s with sessions := Function.update s.sessions fd session }

section

variable (app : App σ ε)

/-- `clients_count` is a `size_t`: removing a client that is not counted wraps it around. -/
def removeClient (s : Server σ) (fd : Fd) : Server σ :=
  { s with
    readHandlers := Function.update s.readHandlers fd false
    writeHandlers := Function.update s.writeHandlers fd false
    clients := Function.update s.clients fd .zero
    clientsCount := (s.clientsCount + (2 ^ 64 - 1)) % 2 ^ 64
    app := app.onDisconnect s.app fd
    notices := s.notices ++ [.disconnected fd] }

/-! ## Framing -/

def queueWrite (s : Server σ) (fd : Fd) (data : Bytes) (result : SendResult) : Server σ × Bool :=
  let w := (s.clients fd).queueWrite data result.write
  let s := s.setClient fd w.client
  match w.ending with
  | .full => (s, false)
  | .drained => (s, true)
  -- The result of `el_add_write` is not looked at.
  | .waiting => (if result.registered then s.watchWrite fd true else s, true)
  | .lost => (s.removeClient app fd, false)

/-- `send_framed`, undefined for a payload that overruns its frame buffer. -/
def sendFramed (s : Server σ) (fd : Fd) (payload : Bytes) (result : SendResult) : Option (Server σ × Bool) :=
  if payload.length > msgMax then none else some (s.queueWrite app fd (frame payload) result)

/-- The call of `on_message`, from the handler's first statement to its return. -/
def handle (s : Server σ) (fd : Fd) (result : SendResult) : Handling σ → Option (Server σ × Bool)
  | .finish state ok => some ({ s with app := state }, ok)
  | .reply state payload resume =>
    (sendFramed app { s with app := state } fd payload result).map fun sent =>
      let ended := resume sent.1.app sent.2
      ({ sent.1 with app := ended.1 }, ended.2)

/-- `process_buffer`, message `k` of the event first. Every round removes a frame from the buffer, so more
rounds than it has bytes are never made. -/
def processBuffer (during : During ε) (fd : Fd) : Nat → Nat → Server σ → Option (Server σ)
  | 0, _, _ => none
  | rounds + 1, k, s =>
    match frontFrame (s.clients fd).buf with
    | .short => some s
    | .oversize => some (s.removeClient app fd)
    | .message payload => do
      let handling ← app.onMessage s.app fd payload (during k).1
      let (s, ok) ← s.handle app fd (during k).2 handling
      let s := s.noteDelivered fd payload ok
      if ok then
        -- The size of the `memmove` wraps around if the handler's own send has cleared the slot.
        if (s.clients fd).buf.length < frameHdrSize + payload.length then none
        else processBuffer during fd rounds (k + 1) (s.dropFrame fd (frameHdrSize + payload.length))
      else some (s.removeClient app fd)

def processAll (s : Server σ) (fd : Fd) (during : During ε) : Option (Server σ) :=
  processBuffer app during fd ((s.clients fd).buf.length + 1) 0 s

/-! ## Event-loop callbacks -/

def onWrite (s : Server σ) (fd : Fd) (result : SocketWrite) (during : During ε) : Option (Server σ) :=
  let w := (s.clients fd).flush result
  match w.ending with
  | .lost => some (s.removeClient app fd)
  | .drained => processAll app ((s.setClient fd w.client).watchWrite fd false) fd during
  | .full | .waiting => some (s.setClient fd w.client)

def onRead (s : Server σ) (fd : Fd) (result : SocketRead) (during : During ε) : Option (Server σ) :=
  let c := s.clients fd
  if c.active then
    match result with
    | .closed | .hardError => some (s.removeClient app fd)
    | .again => some s
    | .data chunk =>
      if chunk = [] ∨ chunk.length > bufSize - c.buf.length then none
      else
        let c := { c with lastActiveMs := s.nowMs, buf := c.buf ++ chunk }
        processAll app ((s.setClient fd c).noteReceived fd chunk) fd during
  else some s

def onAccept (s : Server σ) : Accept → Option (Server σ)
  | .refused => some s
  | .taken fd registered =>
    -- The kernel never hands out a descriptor that is still open.
    if (s.clients fd).active then none
    else if registered then
      some { s with
        clients := Function.update s.clients fd (.accepted s.nowMs)
        clientsCount := (s.clientsCount + 1) % 2 ^ 64
        readHandlers := Function.update s.readHandlers fd true
        app := app.onConnect s.app fd
        notices := s.notices ++ [.connected fd]
        sessions := Function.update s.sessions fd ⟨[], []⟩ }
    else
      -- Counted, closed, cleared and discounted again.
      some { s with
        clients := Function.update s.clients fd .zero
        clientsCount := ((s.clientsCount + 1) % 2 ^ 64 + (2 ^ 64 - 1)) % 2 ^ 64 }

/-! ## Housekeeping -/

/-- The loop of `check_client_timeouts` over the descriptors that remain. -/
def checkFrom : List Fd → Nat → Server σ → Server σ
  | [], _, s => s
  | fd :: rest, found, s =>
    -- `found` counts up while every removal counts `clients_count` down.
    if found < s.clientsCount then
      if (s.clients fd).active then
        if (s.nowMs - (s.clients fd).lastActiveMs).tdiv 1000 ≥ s.clientTimeoutS then
          checkFrom rest (found + 1) (s.removeClient app fd)
        else checkFrom rest (found + 1) s
      else checkFrom rest found s
    else s

def checkClientTimeouts (s : Server σ) : Server σ := s.checkFrom app (List.finRange maxFds) 0

def clientTimeoutsCron (s : Server σ) : Server σ :=
  if s.nowMs - s.lastTimeoutCheckMs < clientTimeoutCheckIntervalMs then s
  else ({ s with lastTimeoutCheckMs := s.nowMs } : Server σ).checkClientTimeouts app

def serverBeforeSleep (s : Server σ) (now realtime : Int) : Option (Server σ) :=
  let s := ({ s with nowMs := now, cronloops := s.cronloops + 1 } : Server σ).clientTimeoutsCron app
  (app.onPeriodic s.app now realtime).map fun state => { s with app := state }

/-! ## Events -/

inductive Event (ε : Type) where
  | accept (result : Accept)
  | readable (fd : Fd) (result : SocketRead) (during : During ε)
  | writable (fd : Fd) (result : SocketWrite) (during : During ε)
  | checkTimeouts
  | beforeSleep (now realtime : Int)
  | shutdown

/-- One callback. An event whose handler is no longer installed is skipped. -/
def next (s : Server σ) : Event ε → Option (Server σ)
  | .accept result => s.onAccept app result
  | .readable fd result during => if s.readHandlers fd then s.onRead app fd result during else some s
  | .writable fd result during => if s.writeHandlers fd then s.onWrite app fd result during else some s
  | .checkTimeouts => some (s.checkClientTimeouts app)
  | .beforeSleep now realtime => s.serverBeforeSleep app now realtime
  | .shutdown => some { s with stop := true }

end

end Server

end MapReduce
