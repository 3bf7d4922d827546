import MapReduce.Server.Connections

/-! Which clients one run of `check_client_timeouts` removes.

The scan counts the active clients it has met and stops when it has met as many
as `clients_count` says there are. Every removal lowers that number, so the scan
gives up one active client earlier for each client it has removed.
-/

set_option autoImplicit false

namespace MapReduce

namespace Server

variable {σ ε : Type}

/-- The slot is active and has been idle for the timeout, in whole seconds. -/
def idle (s : Server σ) (fd : Fd) : Bool :=
  (s.clients fd).active && decide ((s.nowMs - (s.clients fd).lastActiveMs).tdiv 1000 ≥ s.clientTimeoutS)

def activeAmong (s : Server σ) (fds : List Fd) : Nat := fds.countP fun fd => (s.clients fd).active

def idleAmong (s : Server σ) (fds : List Fd) : Nat := fds.countP s.idle

def below (fd : Fd) : List Fd := (List.finRange maxFds).take fd.val

variable {app : App σ ε} {s : Server σ}

theorem activeAmong_cons (fd : Fd) (fds : List Fd) :
    s.activeAmong (fd :: fds) = s.activeAmong fds + if (s.clients fd).active then 1 else 0 :=
  List.countP_cons

theorem idleAmong_cons (fd : Fd) (fds : List Fd) :
    s.idleAmong (fd :: fds) = s.idleAmong fds + if s.idle fd then 1 else 0 :=
  List.countP_cons

/-! ## What a removal leaves alone -/

theorem removeClient_idle {fd other : Fd} (ne : other ≠ fd) : (s.removeClient app fd).idle other = s.idle other := by
  unfold idle
  rw [(local_removeClient app s fd).clients other ne]
  rfl

theorem removeClient_among (app : App σ ε) {fd : Fd} {fds : List Fd} (outside : fd ∉ fds) :
    (s.removeClient app fd).activeAmong fds = s.activeAmong fds ∧
      (s.removeClient app fd).idleAmong fds = s.idleAmong fds := by
  have ne : ∀ other ∈ fds, other ≠ fd := fun other member same => outside (same ▸ member)
  constructor
  · apply List.countP_congr
    intro other member
    rw [(local_removeClient app s fd).clients other (ne other member)]
  · apply List.countP_congr
    intro other member
    rw [removeClient_idle (ne other member)]

/-! ## One round of the scan -/

theorem checkFrom_cons (fd : Fd) (rest : List Fd) (found : Nat) (s : Server σ) :
    s.checkFrom app (fd :: rest) found =
      if found < s.clientsCount then
        if s.idle fd then (s.removeClient app fd).checkFrom app rest (found + 1)
        else if (s.clients fd).active then s.checkFrom app rest (found + 1)
        else s.checkFrom app rest found
      else s := by
  unfold idle
  rw [checkFrom]
  cases (s.clients fd).active with
  | true => simp
  | false => simp

theorem checkFrom_outside {fds : List Fd} {fd : Fd} (outside : fd ∉ fds) (found : Nat) (s : Server σ) :
    (s.checkFrom app fds found).clients fd = s.clients fd := by
  induction fds generalizing found s with
  | nil => rfl
  | cons other rest ih =>
    have ne : fd ≠ other := fun same => outside (by simp [same])
    have later : fd ∉ rest := fun member => outside (List.mem_cons_of_mem _ member)
    rw [checkFrom_cons]
    split
    · split
      · rw [ih later, (local_removeClient app s other).clients fd ne]
      · split <;> exact ih later _ s
    · rfl

theorem checkFrom_clock (app : App σ ε) (fds : List Fd) (found : Nat) (s : Server σ) :
    (s.checkFrom app fds found).nowMs = s.nowMs ∧
      (s.checkFrom app fds found).clientTimeoutS = s.clientTimeoutS := by
  induction fds generalizing found s with
  | nil => exact ⟨rfl, rfl⟩
  | cons other rest ih =>
    rw [checkFrom_cons]
    split
    · split
      · exact ih _ _
      · split <;> exact ih _ s
    · exact ⟨rfl, rfl⟩

theorem idle_active {fd : Fd} (here : s.idle fd = true) : (s.clients fd).active = true :=
  (Bool.and_eq_true_iff.mp here).1

theorem removeClient_counted (app : App σ ε) {found : Nat} (bound : s.clientsCount < 2 ^ 64)
    (more : found < s.clientsCount) (fd : Fd) : (s.removeClient app fd).clientsCount = s.clientsCount - 1 := by
  rw [removeClient_count]
  omega

/-- The fate of one client: it is removed when it is idle and the clients met before it, with those removed
counted twice, are fewer than the scan expects. -/
theorem checkFrom_client {front back : List Fd} {fd : Fd} (distinct : (front ++ fd :: back).Nodup) (found : Nat)
    {s : Server σ} (bound : s.clientsCount < 2 ^ 64) :
    (s.checkFrom app (front ++ fd :: back) found).clients fd =
      if s.idle fd ∧ found + s.activeAmong front + s.idleAmong front < s.clientsCount then .zero
      else s.clients fd := by
  induction front generalizing found s with
  | nil =>
    have later : fd ∉ back := (List.nodup_cons.mp distinct).1
    rw [List.nil_append, checkFrom_cons]
    by_cases more : found < s.clientsCount
    · rw [if_pos more]
      cases here : s.idle fd with
      | true => simp [more, checkFrom_outside later, removeClient, activeAmong, idleAmong]
      | false =>
        simp only [Bool.false_eq_true, ↓reduceIte, false_and]
        split <;> exact checkFrom_outside later _ s
    · simp [more, activeAmong, idleAmong]
  | cons other front ih =>
    obtain ⟨first, tail⟩ := List.nodup_cons.mp distinct
    have ne : fd ≠ other := fun same => first (by simp [same])
    have outside : other ∉ front := fun member => first (List.mem_append_left _ member)
    rw [List.cons_append, checkFrom_cons, activeAmong_cons, idleAmong_cons]
    by_cases more : found < s.clientsCount
    · rw [if_pos more]
      cases here : s.idle other with
      | true =>
        -- one client met and one removed
        have fewer := removeClient_counted app bound more other
        obtain ⟨actives, idles⟩ := removeClient_among app outside
        have step : found + 1 + s.activeAmong front + s.idleAmong front < s.clientsCount - 1 ↔
            found + (s.activeAmong front + 1) + (s.idleAmong front + 1) < s.clientsCount := by omega
        rw [if_pos rfl, ih tail (found + 1) (by omega), removeClient_idle ne, actives, idles, fewer,
          (local_removeClient app s other).clients fd ne, idle_active here]
        simp only [↓reduceIte, step]
      | false =>
        rw [if_neg Bool.false_ne_true]
        cases active : (s.clients other).active with
        | true =>
          have step : found + 1 + s.activeAmong front + s.idleAmong front < s.clientsCount ↔
              found + (s.activeAmong front + 1) + s.idleAmong front < s.clientsCount := by omega
          rw [if_pos rfl, ih tail (found + 1) bound]
          simp only [Bool.false_eq_true, ↓reduceIte, Nat.add_zero, step]
        | false =>
          rw [if_neg Bool.false_ne_true, ih tail found bound]
          rfl
    · rw [if_neg more, if_neg (by omega)]

/-! ## The whole scan -/

theorem below_split (fd : Fd) : ∃ back, List.finRange maxFds = below fd ++ fd :: back := by
  have inside : fd.val < (List.finRange maxFds).length := by
    rw [List.length_finRange]
    exact fd.isLt
  refine ⟨(List.finRange maxFds).drop (fd.val + 1), ?_⟩
  conv_lhs => rw [← List.take_append_drop fd.val (List.finRange maxFds), List.drop_eq_getElem_cons inside]
  simp [below]

theorem checkClientTimeouts_client (app : App σ ε) (bound : s.clientsCount < 2 ^ 64) (fd : Fd) :
    (s.checkClientTimeouts app).clients fd =
      if s.idle fd ∧ s.activeAmong (below fd) + s.idleAmong (below fd) < s.clientsCount then .zero
      else s.clients fd := by
  obtain ⟨back, split⟩ := below_split fd
  have distinct := List.nodup_finRange maxFds
  unfold checkClientTimeouts
  rw [split] at distinct ⊢
  rw [checkFrom_client distinct 0 bound, Nat.zero_add]

theorem checkClientTimeouts_idle (app : App σ ε) (bound : s.clientsCount < 2 ^ 64) (fd : Fd) :
    (s.checkClientTimeouts app).idle fd = true ↔
      s.idle fd = true ∧ ¬ s.activeAmong (below fd) + s.idleAmong (below fd) < s.clientsCount := by
  have slot := checkClientTimeouts_client app bound fd
  by_cases removed : s.idle fd = true ∧ s.activeAmong (below fd) + s.idleAmong (below fd) < s.clientsCount
  · rw [if_pos removed] at slot
    simp [idle, slot, Client.zero, removed.2]
  · rw [if_neg removed] at slot
    obtain ⟨now, timeout⟩ := checkFrom_clock app (List.finRange maxFds) 0 s
    have same : (s.checkClientTimeouts app).idle fd = s.idle fd := by
      unfold idle
      rw [slot]
      unfold checkClientTimeouts
      rw [now, timeout]
    rw [same]
    exact ⟨fun here => ⟨here, fun reached => removed ⟨here, reached⟩⟩, fun here => here.1⟩

/-- One check removes every idle client exactly when each of them is met before the scan gives up: the active
clients below it, with the idle ones among them counted twice, are fewer than all active clients. It never
touches a client that is not idle. -/
theorem checkClientTimeouts_complete (app : App σ ε) (s : Server σ) (counted : s.clientsCount = s.activeCount) :
    ((∀ fd, (s.checkClientTimeouts app).idle fd = false) ↔
      ∀ fd, s.idle fd = true → s.activeAmong (below fd) + s.idleAmong (below fd) < s.activeCount) ∧
    ∀ fd, (s.clients fd).active = true → s.idle fd = false →
      (s.checkClientTimeouts app).clients fd = s.clients fd := by
  have limit : maxFds = 1024 := rfl
  have most := s.activeCount_le
  have bound : s.clientsCount < 2 ^ 64 := by omega
  constructor
  · rw [← counted]
    constructor
    · intro gone fd here
      apply Decidable.byContradiction
      intro missed
      have still := (checkClientTimeouts_idle app bound fd).mpr ⟨here, missed⟩
      rw [gone fd] at still
      cases still
    · intro reached fd
      apply Bool.eq_false_iff.mpr
      intro still
      obtain ⟨here, missed⟩ := (checkClientTimeouts_idle app bound fd).mp still
      exact missed (reached fd here)
  · intro fd _ working
    rw [checkClientTimeouts_client app bound fd, if_neg]
    rw [working]
    simp

def silentApp : App Unit Unit where
  onConnect state _ := state
  onDisconnect state _ := state
  onMessage state _ _ _ := some (.finish state true)
  onPeriodic state _ _ := some state

def firstClient : Fd := ⟨21, by decide⟩

def secondClient : Fd := ⟨22, by decide⟩

def twoClients (lastActiveMs : Int) : Server Unit :=
  { init () 10000 5 with
    clients := fun fd =>
      if fd = firstClient then .accepted 0 else if fd = secondClient then .accepted lastActiveMs else .zero
    clientsCount := 2 }

/-- Both clients are idle, and after the first is removed the scan does not look for the second. -/
theorem checkClientTimeouts_misses :
    (twoClients 0).clientsCount = (twoClients 0).activeCount ∧
      (twoClients 0).idle firstClient = true ∧ (twoClients 0).idle secondClient = true ∧
      ((twoClients 0).checkClientTimeouts silentApp).idle firstClient = false ∧
      ((twoClients 0).checkClientTimeouts silentApp).idle secondClient = true := by
  decide +kernel

/-- With the second client at work the first is removed and the second kept. -/
theorem checkClientTimeouts_one_idle :
    (twoClients 9000).idle firstClient = true ∧
      (∀ fd, ((twoClients 9000).checkClientTimeouts silentApp).idle fd = false) ∧
      ((twoClients 9000).checkClientTimeouts silentApp).clients secondClient = .accepted 9000 := by
  have complete := checkClientTimeouts_complete silentApp (twoClients 9000) (by decide +kernel)
  refine ⟨by decide +kernel, complete.1.mpr (by decide +kernel), ?_⟩
  exact complete.2 secondClient (by decide +kernel) (by decide +kernel)

end Server

end MapReduce
