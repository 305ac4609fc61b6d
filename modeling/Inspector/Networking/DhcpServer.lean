import Mathlib.Data.Fin.VecNotation
import Mathlib.Data.UInt
import Mathlib.Logic.Function.Basic
import Mathlib.Order.Fin.Basic

/-! # The DHCP server

`dhcp_server_process` of `dhcpserver.c` lends eight addresses to clients for a day. The clock counts
milliseconds in 32 bits, and the end of a lease is kept in units of 65536 of them. A reply that is
sent may still be lost. The bytes behind the end of a message are given with it, as they are what
happens to be in memory.
-/

namespace Inspector

namespace Dhcp

/-- A hardware address, of `MAC_LEN` bytes. -/
abbrev Mac := Fin 6 → UInt8

/-- `DHCPS_MAX_IP`. -/
abbrev maxIp : ℕ := 8

/-- `DHCPS_BASE_IP`. -/
abbrev baseIp : UInt8 := 16

/-- `DEFAULT_LEASE_TIME_S`. -/
abbrev leaseTimeS : ℕ := 24 * 60 * 60

/-- The lease time in milliseconds. -/
abbrev leaseTime : ℕ := leaseTimeS * 1000

/-- `DHCP_MIN_SIZE`. -/
abbrev minSize : ℕ := 240 + 3

abbrev discoverType : UInt8 := 1
abbrev offerType : UInt8 := 2
abbrev requestType : UInt8 := 3
abbrev ackType : UInt8 := 5

abbrev optSubnetMask : UInt8 := 1
abbrev optRouter : UInt8 := 3
abbrev optDns : UInt8 := 6
abbrev optRequestedIp : UInt8 := 50
abbrev optIpLeaseTime : UInt8 := 51
abbrev optMsgType : UInt8 := 53
abbrev optServerId : UInt8 := 54
abbrev optEnd : UInt8 := 255

/-- `dhcp_server_lease_t`. -/
structure Lease where
  mac : Mac := fun _ => 0
  expiry : UInt16 := 0

/-- `dhcp_server_t`, its addresses by their bytes. -/
structure Server where
  ip : Fin 4 → UInt8
  nm : Fin 4 → UInt8
  lease : Fin maxIp → Lease

/-- `dhcp_server_init`. -/
def serverInit (ip nm : Fin 4 → UInt8) : Server := ⟨ip, nm, fun _ => {}⟩

/-- What is used of a message: its length, the hardware address of the client, and the bytes behind
the magic cookie. -/
structure Message where
  length : ℕ
  chaddr : Mac
  opt : ℕ → UInt8

/-- What is set in a reply; its options stand behind the magic cookie of the message. -/
structure Reply where
  yiaddr : Fin 4 → UInt8
  chaddr : Mac
  type : UInt8
  options : List UInt8

/-- The loop of `opt_find`, which makes at most 154 passes. -/
def optLoop (opt : ℕ → UInt8) (cmd : UInt8) : ℕ → ℕ → Option ℕ
  | 0, _ => none
  | k + 1, i =>
    if i < 308 ∧ opt i ≠ optEnd then
      if opt i = cmd then some i else optLoop opt cmd k (i + (2 + (opt (i + 1)).toNat))
    else none

/-- `opt_find`. -/
def optFind (opt : ℕ → UInt8) (cmd : UInt8) : Option ℕ := optLoop opt cmd 154 0

/-- `opt_write_n`. -/
def optWriteN (cmd : UInt8) (data : List UInt8) : List UInt8 :=
  cmd :: UInt8.ofNat data.length :: data

/-- `opt_write_u32`. -/
def optWriteU32 (cmd : UInt8) (val : UInt32) : List UInt8 :=
  [cmd, 4, (val >>> 24).toUInt8, (val >>> 16).toUInt8, (val >>> 8).toUInt8, val.toUInt8]

/-- The address of a lease. -/
def Server.address (d : Server) (yi : Fin maxIp) : Fin 4 → UInt8 :=
  Function.update d.ip 3 (baseIp + UInt8.ofNat yi)

/-- The reply with an address. -/
def Server.reply (d : Server) (chaddr : Mac) (type : UInt8) (yi : Fin maxIp) : Reply where
  yiaddr := d.address yi
  chaddr := chaddr
  type := type
  options := optWriteN optMsgType [type] ++ optWriteN optServerId (List.ofFn d.ip) ++
    optWriteN optSubnetMask (List.ofFn d.nm) ++ optWriteN optRouter (List.ofFn d.ip) ++
    optWriteU32 optDns 0x08080808 ++ optWriteU32 optIpLeaseTime (UInt32.ofNat leaseTimeS) ++
    [optEnd]

/-- The end of a lease has passed. -/
def expired (expiry : UInt16) (ticks : UInt32) : Bool :=
  ((expiry.toUInt32 <<< 16 ||| 0xFFFF) - ticks).toBitVec.toInt < 0

/-- The end of a lease that is given now. -/
def expiryAt (ticks : UInt32) : UInt16 := ((ticks + UInt32.ofNat leaseTime) >>> 16).toUInt16

/-- The loop over the leases for `DHCPDISCOVER`: the one of the client, else the first that is free
or has ended. -/
def discover (ticks : UInt32) (chaddr : Mac) :
    List (Fin maxIp) → Option (Fin maxIp) → (Fin maxIp → Lease) →
      Option (Fin maxIp) × (Fin maxIp → Lease)
  | [], yi, lease => (yi, lease)
  | i :: is, yi, lease =>
    if (lease i).mac = chaddr then (some i, lease)
    else if yi.isSome then discover ticks chaddr is yi lease
    else if expired (lease i).expiry ticks then
      discover ticks chaddr is (some i) (Function.update lease i { lease i with mac := fun _ => 0 })
    else discover ticks chaddr is (if (lease i).mac = fun _ => 0 then some i else none) lease

/-- The lease that is asked for with `DHCPREQUEST`, if it is one of the server. -/
def Server.requested (d : Server) (opt : ℕ → UInt8) : Option (Fin maxIp) :=
  match optFind opt optRequestedIp with
  | none => none
  | some o =>
    if opt (o + 2) = d.ip 0 ∧ opt (o + 3) = d.ip 1 ∧ opt (o + 4) = d.ip 2 then
      let yi := (opt (o + 5) - baseIp).toNat
      if h : yi < maxIp then some ⟨yi, h⟩ else none
    else none

/-- `dhcp_server_process`. -/
def Server.process (d : Server) (ticks : UInt32) (msg : Message) : Server × Option Reply :=
  if msg.length < minSize then (d, none)
  else if msg.opt 2 = discoverType then
    let (yi, lease) := discover ticks msg.chaddr (List.finRange maxIp) none d.lease
    ({ d with lease := lease }, yi.map (d.reply msg.chaddr offerType))
  else if msg.opt 2 = requestType then
    match d.requested msg.opt with
    | none => (d, none)
    | some yi =>
      if (d.lease yi).mac = msg.chaddr ∨ (d.lease yi).mac = fun _ => 0 then
        ({ d with lease := Function.update d.lease yi ⟨msg.chaddr, expiryAt ticks⟩ },
          some (d.reply msg.chaddr ackType yi))
      else (d, none)
  else (d, none)

/-- The replies to messages, with the times at which they are processed. -/
def replies (d : Server) : List (ℕ × Message) → List (ℕ × Reply)
  | [] => []
  | (time, msg) :: msgs =>
    let (d, reply) := d.process (UInt32.ofNat time) msg
    reply.toList.map (time, ·) ++ replies d msgs

/-! ### The end of a lease -/

section Clock

variable {t now : ℕ}

theorem toNat_expiryAt (t : ℕ) :
    (expiryAt (UInt32.ofNat t)).toNat = (t + leaseTime) / 2 ^ 16 % 2 ^ 16 := by
  simp only [expiryAt, UInt32.toNat_toUInt16, UInt32.toNat_shiftRight, UInt32.toNat_add,
    UInt32.toNat_ofNat', Nat.shiftRight_eq_div_pow]
  have h16 : UInt32.toNat 16 % 32 = 16 := rfl
  rw [h16]
  omega

theorem toNat_shiftLeft_or (expiry : UInt16) :
    (expiry.toUInt32 <<< 16 ||| 0xFFFF).toNat = expiry.toNat * 2 ^ 16 + 0xFFFF := by
  have hlt := expiry.toNat_lt
  have hor := Nat.shiftLeft_add_eq_or_of_lt (i := 16) (b := 0xFFFF) (by decide) expiry.toNat
  have h16 : UInt32.toNat 16 % 32 = 16 := rfl
  have hmask : UInt32.toNat 0xFFFF = 0xFFFF := rfl
  simp only [UInt32.toNat_or, UInt32.toNat_shiftLeft, UInt16.toNat_toUInt32, h16, hmask]
  rw [Nat.mod_eq_of_lt (by rw [Nat.shiftLeft_eq]; omega), ← hor, Nat.shiftLeft_eq]

theorem expired_iff (expiry : UInt16) (now : ℕ) :
    expired expiry (UInt32.ofNat now) = true ↔
      2 ^ 31 ≤ (expiry.toNat * 2 ^ 16 + 0xFFFF + (2 ^ 32 - now % 2 ^ 32)) % 2 ^ 32 := by
  rw [expired, decide_eq_true_iff, BitVec.toInt_neg_iff, UInt32.toNat_toBitVec, UInt32.toNat_sub,
    toNat_shiftLeft_or, UInt32.toNat_ofNat']
  omega

/-- A lease has not ended before its time. -/
theorem lt_of_expired (ht : t ≤ now)
    (h : expired (expiryAt (UInt32.ofNat t)) (UInt32.ofNat now) = true) : t + leaseTime < now := by
  rw [expired_iff, toNat_expiryAt] at h
  by_contra hle
  have hday : leaseTime = 86400000 := rfl
  omega

end Clock

/-! ### Leases are exclusive -/

section Exclusive

variable {d : Server} {msg : Message} {ticks : UInt32} {chaddr m : Mac} {yi : Fin maxIp}
  {t now now' : ℕ} {msgs : List (ℕ × Message)}

theorem address_inj {yi' : Fin maxIp} (h : d.address yi = d.address yi') : yi = yi' := by
  have hbyte : ∀ i j : Fin maxIp, baseIp + UInt8.ofNat i = baseIp + UInt8.ofNat j → i = j := by
    decide
  have hlast := congrFun h 3
  rw [Server.address, Server.address, Function.update_self, Function.update_self] at hlast
  exact hbyte _ _ hlast

variable (ticks chaddr) in
/-- The loop changes no lease that has not ended. -/
theorem lease_discover (is : List (Fin maxIp)) (found : Option (Fin maxIp))
    (lease : Fin maxIp → Lease) (yi : Fin maxIp) :
    (discover ticks chaddr is found lease).2 yi = lease yi ∨
      expired (lease yi).expiry ticks = true := by
  induction is generalizing found lease with
  | nil => exact .inl rfl
  | cons i is ih =>
    rw [discover]
    split_ifs with hmac hsome hend hfree
    · exact .inl rfl
    · exact ih found lease
    · by_cases hi : yi = i
      · exact .inr (hi ▸ hend)
      · have hrest := ih (some i) (Function.update lease i { lease i with mac := fun _ => 0 })
        rwa [Function.update_of_ne hi] at hrest
    · exact ih (some i) lease
    · exact ih none lease

/-- What a message does: nothing, or it frees leases that have ended and is not acknowledged, or it
gives a lease. -/
theorem process_cases (d : Server) (ticks : UInt32) (msg : Message) :
    d.process ticks msg = (d, none) ∨
      ((d.process ticks msg).1 =
        { d with lease := (discover ticks msg.chaddr (List.finRange maxIp) none d.lease).2 } ∧
        ∀ r ∈ (d.process ticks msg).2, r.type = offerType) ∨
      ∃ yi, ((d.lease yi).mac = msg.chaddr ∨ (d.lease yi).mac = fun _ => 0) ∧
        d.process ticks msg =
          ({ d with lease := Function.update d.lease yi ⟨msg.chaddr, expiryAt ticks⟩ },
            some (d.reply msg.chaddr ackType yi)) := by
  rw [Server.process]
  split_ifs with hsize hdiscover hrequest
  · exact .inl rfl
  · refine .inr (.inl ⟨rfl, ?_⟩)
    intro r hr
    obtain ⟨yi, -, rfl⟩ := Option.map_eq_some_iff.mp hr
    rfl
  · cases d.requested msg.opt with
    | none => exact .inl rfl
    | some yi =>
      simp only
      split_ifs with hmac
      · exact .inr (.inr ⟨yi, hmac, rfl⟩)
      · exact .inl rfl
  · exact .inl rfl

theorem ip_process (d : Server) (ticks : UInt32) (msg : Message) :
    (d.process ticks msg).1.ip = d.ip := by
  rcases process_cases d ticks msg with h | ⟨h, -⟩ | ⟨yi, -, h⟩
  · rw [h]
  · rw [h]
  · rw [h]

/-- A client holds a lease, which has been given to it at a time or later. -/
structure Holds (d : Server) (yi : Fin maxIp) (m : Mac) (t now : ℕ) : Prop where
  mac : (d.lease yi).mac = m
  expiry : ∃ t', t ≤ t' ∧ t' ≤ now ∧ (d.lease yi).expiry = expiryAt (UInt32.ofNat t')

theorem Holds.mono (h : Holds d yi m t now) (hle : now ≤ now') : Holds d yi m t now' := by
  obtain ⟨t', ht, htnow, hexpiry⟩ := h.expiry
  exact ⟨h.mac, t', ht, htnow.trans hle, hexpiry⟩

/-- While the time of the lease has not passed, the client goes on holding it, and no one else is
given its address. -/
theorem Holds.process (h : Holds d yi m t now) (hm : m ≠ fun _ => 0) (hle : now ≤ now')
    (msg : Message) :
    t + leaseTime < now' ∨ Holds (d.process (UInt32.ofNat now') msg).1 yi m t now' ∧
      ∀ r ∈ (d.process (UInt32.ofNat now') msg).2, r.type = ackType → r.yiaddr = d.address yi →
        r.chaddr = m := by
  obtain ⟨t', ht, htnow, hexpiry⟩ := h.expiry
  rcases process_cases d (UInt32.ofNat now') msg with hcase | ⟨hcase, hoffer⟩ | ⟨i, hmac, hcase⟩
  · right
    rw [hcase]
    refine ⟨h.mono hle, ?_⟩
    rintro r ⟨⟩
  · rcases lease_discover (UInt32.ofNat now') msg.chaddr
      (List.finRange maxIp) none d.lease yi with hsame | hend
    · right
      rw [hcase]
      constructor
      · refine ⟨?_, t', ht, htnow.trans hle, ?_⟩
        · exact (congrArg Lease.mac hsame).trans h.mac
        · exact (congrArg Lease.expiry hsame).trans hexpiry
      intro r hr hack
      exact absurd ((hoffer r hr).symm.trans hack) (by decide)
    · left
      rw [hexpiry] at hend
      have hlt := lt_of_expired (htnow.trans hle) hend
      omega
  · right
    rw [hcase]
    by_cases hi : i = yi
    · subst hi
      have hclient : msg.chaddr = m := by
        rcases hmac with hmac | hmac
        · rw [← hmac, h.mac]
        · exact absurd (h.mac.symm.trans hmac) hm
      constructor
      · refine ⟨?_, now', ht.trans (htnow.trans hle), le_rfl, ?_⟩
        · dsimp only
          rw [Function.update_self, hclient]
        · dsimp only
          rw [Function.update_self]
      · rintro r ⟨⟩ _ _
        exact hclient
    · constructor
      · refine ⟨?_, t', ht, htnow.trans hle, ?_⟩
        · dsimp only
          rw [Function.update_of_ne (Ne.symm hi), h.mac]
        · dsimp only
          rw [Function.update_of_ne (Ne.symm hi), hexpiry]
      · rintro r ⟨⟩ _ haddress
        exact absurd (address_inj haddress) hi

/-- The replies to messages that come later. -/
theorem lt_of_mem_replies (htimes : msgs.Pairwise (·.1 ≤ ·.1)) (hle : ∀ e ∈ msgs, now ≤ e.1)
    {r : ℕ × Reply} (hr : r ∈ replies d msgs) : now ≤ r.1 := by
  induction msgs generalizing d with
  | nil => cases hr
  | cons e msgs ih =>
    obtain ⟨he, hle⟩ := List.forall_mem_cons.mp hle
    rw [replies, List.mem_append] at hr
    rcases hr with hr | hr
    · obtain ⟨_, -, rfl⟩ := List.mem_map.mp hr
      exact he
    · exact ih (List.pairwise_cons.mp htimes).2 hle hr

/-- Another client is given the address of a lease after its time only. -/
theorem Holds.replies (h : Holds d yi m t now) (hm : m ≠ fun _ => 0)
    (htimes : msgs.Pairwise (·.1 ≤ ·.1)) (hle : ∀ e ∈ msgs, now ≤ e.1) :
    ∀ r ∈ replies d msgs, r.2.type = ackType → r.2.yiaddr = d.address yi → r.2.chaddr ≠ m →
      t + leaseTime < r.1 := by
  induction msgs generalizing d now with
  | nil =>
    intro r hr
    cases hr
  | cons e msgs ih =>
    obtain ⟨time, msg⟩ := e
    obtain ⟨he, hle⟩ := List.forall_mem_cons.mp hle
    obtain ⟨hlater, htimes⟩ := List.pairwise_cons.mp htimes
    intro r hr hack haddress hother
    rw [Dhcp.replies, List.mem_append] at hr
    rcases h.process hm he msg with hlt | ⟨hholds, hreply⟩
    · rcases hr with hr | hr
      · obtain ⟨_, -, rfl⟩ := List.mem_map.mp hr
        exact hlt
      · exact hlt.trans_le (lt_of_mem_replies htimes hlater hr)
    · rcases hr with hr | hr
      · obtain ⟨reply, hmem, rfl⟩ := List.mem_map.mp hr
        exact absurd (hreply reply (Option.mem_toList.mp hmem) hack haddress) hother
      · refine ih hholds htimes hlater r hr hack ?_ hother
        rw [haddress, Server.address, Server.address, ip_process]

/-- In every run, an address that has been acknowledged to a client is not acknowledged to another
one for a day. -/
theorem replies_exclusive (d : Server) (htimes : msgs.Pairwise (·.1 ≤ ·.1)) :
    (replies d msgs).Pairwise fun r r' =>
      r.2.type = ackType → r'.2.type = ackType → r.2.yiaddr = r'.2.yiaddr →
        (r.2.chaddr ≠ fun _ => 0) → r'.2.chaddr ≠ r.2.chaddr → r.1 + leaseTime < r'.1 := by
  induction msgs generalizing d with
  | nil => exact List.Pairwise.nil
  | cons e msgs ih =>
    obtain ⟨time, msg⟩ := e
    obtain ⟨hlater, htimes⟩ := List.pairwise_cons.mp htimes
    rw [replies, List.pairwise_append]
    refine ⟨?_, ih _ htimes, ?_⟩
    · cases (d.process (UInt32.ofNat time) msg).2 <;> simp
    · intro r hr r' hr' hack hack' haddress hm hother
      obtain ⟨reply, hreply, rfl⟩ := List.mem_map.mp hr
      have hip := ip_process d (UInt32.ofNat time) msg
      rcases process_cases d (UInt32.ofNat time) msg with hcase | ⟨-, hoffer⟩ | ⟨i, -, hcase⟩
      · rw [hcase] at hreply
        cases hreply
      · exact absurd ((hoffer reply (Option.mem_toList.mp hreply)).symm.trans hack) (by decide)
      · rw [hcase] at hreply hr' hip
        obtain rfl := List.mem_singleton.mp hreply
        have hholds : Holds
            { d with lease := Function.update d.lease i ⟨msg.chaddr, expiryAt (.ofNat time)⟩ } i
            msg.chaddr time time := by
          refine ⟨?_, time, le_rfl, le_rfl, ?_⟩
          · dsimp only
            rw [Function.update_self]
          · dsimp only
            rw [Function.update_self]
        exact hholds.replies hm htimes hlater r' hr' hack' haddress.symm hother

/-- The hardware address of a client. -/
def clientMac (n : UInt8) : Mac := fun _ => n

/-- A message with its type and an address that is asked for. -/
def clientMessage (type n last : UInt8) : Message where
  length := 300
  chaddr := clientMac n
  opt i := [53, 1, type, 50, 4, 192, 168, 5, last, 255].getD i 0

/-- A client is given an address; another one asks for it in vain, and is given it two days
later. -/
def twoClients : List (ℕ × Message) :=
  [(0, clientMessage 3 1 16), (1000, clientMessage 3 2 16),
    (2 * leaseTime, clientMessage 1 2 16), (2 * leaseTime + 1000, clientMessage 3 2 16)]

theorem replies_exclusive_twoClients :
    ((replies (serverInit ![192, 168, 5, 1] ![255, 255, 255, 0]) twoClients).map
      fun r => (r.1, r.2.type, r.2.yiaddr 3)) =
        [(0, ackType, 16), (2 * leaseTime, offerType, 16), (2 * leaseTime + 1000, ackType, 16)] ∧
    (replies (serverInit ![192, 168, 5, 1] ![255, 255, 255, 0]) twoClients).Pairwise fun r r' =>
      r.2.type = ackType → r'.2.type = ackType → r.2.yiaddr = r'.2.yiaddr →
        (r.2.chaddr ≠ fun _ => 0) → r'.2.chaddr ≠ r.2.chaddr → r.1 + leaseTime < r'.1 :=
  ⟨by decide +kernel, replies_exclusive _ (by decide)⟩

end Exclusive

/-! ### Offers are kept -/

section Offer

variable {d : Server} {msg msg' : Message} {ticks ticks' : UInt32} {chaddr : Mac}

/-- A lease that may be offered to a client. -/
def Available (lease : Lease) (chaddr : Mac) (ticks : UInt32) : Prop :=
  lease.mac = chaddr ∨ (lease.mac = fun _ => 0) ∨ expired lease.expiry ticks = true

variable (ticks chaddr) in
/-- What the loop has found is free or that of the client. -/
theorem mac_discover (is : List (Fin maxIp)) (found : Option (Fin maxIp))
    (lease : Fin maxIp → Lease)
    (hfound : ∀ yi ∈ found, (lease yi).mac = fun _ => 0) :
    ∀ yi ∈ (discover ticks chaddr is found lease).1,
      ((discover ticks chaddr is found lease).2 yi).mac = chaddr ∨
        ((discover ticks chaddr is found lease).2 yi).mac = fun _ => 0 := by
  induction is generalizing found lease with
  | nil => exact fun yi hyi => .inr (hfound yi hyi)
  | cons i is ih =>
    rw [discover]
    split_ifs with hmac hsome hend hfree
    · rintro yi ⟨⟩
      exact .inl hmac
    · exact ih found lease hfound
    · apply ih
      rintro yi ⟨⟩
      rw [Function.update_self]
    · apply ih
      rintro yi ⟨⟩
      exact hfree
    · apply ih
      rintro yi ⟨⟩

/-- The loop finds a lease if there is one to be found. -/
theorem isSome_discover (is : List (Fin maxIp)) (found : Option (Fin maxIp))
    (lease : Fin maxIp → Lease) :
    (discover ticks chaddr is found lease).1.isSome = true ↔
      found.isSome = true ∨ ∃ i ∈ is, Available (lease i) chaddr ticks := by
  induction is generalizing found lease with
  | nil => simp [discover]
  | cons i is ih =>
    rw [discover]
    split_ifs with hmac hsome hend hfree
    · exact iff_of_true rfl (.inr ⟨i, List.mem_cons_self, .inl hmac⟩)
    · rw [ih]
      exact iff_of_true (.inl hsome) (.inl hsome)
    · rw [ih]
      exact iff_of_true (.inl rfl) (.inr ⟨i, List.mem_cons_self, .inr (.inr hend)⟩)
    · rw [ih]
      exact iff_of_true (.inl rfl) (.inr ⟨i, List.mem_cons_self, .inr (.inl hfree)⟩)
    · rw [ih]
      have hnone : ¬Available (lease i) chaddr ticks := by
        rintro (h | h | h)
        · exact hmac h
        · exact hfree h
        · exact hend h
      constructor
      · rintro (h | ⟨j, hj, h⟩)
        · cases h
        · exact .inr ⟨j, List.mem_cons_of_mem i hj, h⟩
      · rintro (h | ⟨j, hj, h⟩)
        · exact absurd h hsome
        · rcases List.mem_cons.mp hj with rfl | hj
          · exact absurd h hnone
          · exact .inr ⟨j, hj, h⟩

/-- A client asks for an address. -/
structure Requests (msg : Message) (address : Fin 4 → UInt8) : Prop where
  size : minSize ≤ msg.length
  type : msg.opt 2 = requestType
  option : ∃ o, optFind msg.opt optRequestedIp = some o ∧
    ∀ k : Fin 4, msg.opt (o + 2 + k) = address k

theorem requested_of_requests {yi : Fin maxIp} (h : Requests msg (d.address yi)) :
    d.requested msg.opt = some yi := by
  obtain ⟨o, hfind, hbytes⟩ := h.option
  have hsub : ∀ i : Fin maxIp, (baseIp + UInt8.ofNat i - baseIp).toNat = i := by
    decide
  have hlast : msg.opt (o + 5) = baseIp + UInt8.ofNat yi := hbytes 3
  have hyi : (msg.opt (o + 5) - baseIp).toNat = yi := by rw [hlast, hsub]
  rw [Server.requested, hfind]
  simp only
  rw [if_pos ⟨hbytes 0, hbytes 1, hbytes 2⟩, dif_pos (hyi ▸ yi.isLt)]
  exact congrArg some (Fin.ext hyi)

/-- A client is offered an address whenever a lease is its own, free or ended, and the address is
acknowledged when the client asks for it next. -/
theorem offer_acknowledged (d : Server) (ticks : UInt32) (hsize : minSize ≤ msg.length)
    (hdiscover : msg.opt 2 = discoverType) :
    ((d.process ticks msg).2.isSome = true ↔
      ∃ i, Available (d.lease i) msg.chaddr ticks) ∧
    ∀ r ∈ (d.process ticks msg).2, r.type = offerType ∧ r.chaddr = msg.chaddr ∧
      ∀ ticks' msg', Requests msg' r.yiaddr → msg'.chaddr = msg.chaddr →
        ∃ r' ∈ ((d.process ticks msg).1.process ticks' msg').2,
          r'.type = ackType ∧ r'.chaddr = msg.chaddr ∧ r'.yiaddr = r.yiaddr := by
  have hprocess : d.process ticks msg =
      ({ d with lease := (discover ticks msg.chaddr (List.finRange maxIp) none d.lease).2 },
        (discover ticks msg.chaddr (List.finRange maxIp) none d.lease).1.map
          (d.reply msg.chaddr offerType)) := by
    rw [Server.process, if_neg (not_lt.mpr hsize), if_pos hdiscover]
  constructor
  · rw [hprocess, Option.isSome_map, isSome_discover]
    simp
  · intro r hr
    rw [hprocess] at hr ⊢
    obtain ⟨yi, hyi, rfl⟩ := Option.map_eq_some_iff.mp hr
    refine ⟨rfl, rfl, fun ticks' msg' hask hclient => ?_⟩
    have hmac := mac_discover ticks msg.chaddr (List.finRange maxIp) none
      d.lease (by rintro yi ⟨⟩) yi hyi
    have hneq : ¬msg'.opt 2 = discoverType := by
      rw [hask.type]
      decide
    generalize (discover ticks msg.chaddr (List.finRange maxIp) none d.lease).2 = lease at hmac ⊢
    have hrequested : Server.requested { d with lease := lease } msg'.opt = some yi :=
      requested_of_requests hask
    rw [Server.process, if_neg (not_lt.mpr hask.size), if_neg hneq, if_pos hask.type, hrequested,
      hclient]
    simp only
    rw [if_pos hmac]
    exact ⟨_, rfl, rfl, rfl, rfl⟩

/-- The first client of all is offered the first address, and has it acknowledged. -/
theorem offer_acknowledged_first :
    ∃ r ∈ ((serverInit ![192, 168, 5, 1] ![255, 255, 255, 0]).process 0 (clientMessage 1 2 0)).2,
      r.yiaddr = ![192, 168, 5, 16] ∧
      ∃ r' ∈ (((serverInit ![192, 168, 5, 1] ![255, 255, 255, 0]).process 0
          (clientMessage 1 2 0)).1.process 1000 (clientMessage 3 2 16)).2,
        r'.type = ackType ∧ r'.chaddr = clientMac 2 ∧ r'.yiaddr = r.yiaddr := by
  obtain ⟨hoffer, hack⟩ := @offer_acknowledged (clientMessage 1 2 0)
    (serverInit ![192, 168, 5, 1] ![255, 255, 255, 0]) 0 (by decide) (by decide)
  obtain ⟨r, hr⟩ := Option.isSome_iff_exists.mp (hoffer.mpr ⟨0, .inr (.inl rfl)⟩)
  have haddress : r.yiaddr = ![192, 168, 5, 16] := by
    have hfirst : ((serverInit ![192, 168, 5, 1] ![255, 255, 255, 0]).process 0
        (clientMessage 1 2 0)).2.map Reply.yiaddr = some ![192, 168, 5, 16] := by
      decide +kernel
    rw [hr] at hfirst
    exact Option.some.inj hfirst
  have hask : Requests (clientMessage 3 2 16) r.yiaddr := by
    refine ⟨by decide, by decide, 3, by decide, ?_⟩
    rw [haddress]
    decide
  exact ⟨r, hr, haddress, (hack r hr).2.2 1000 (clientMessage 3 2 16) hask rfl⟩

end Offer

end Dhcp

end Inspector
