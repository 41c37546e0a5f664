import KvStorage.Membership.Handles

/-!
# Addresses

What a server stores in its znode is `127.0.0.1:` and its port; `rtable_connect` takes such a
string apart at the colon. `set_next_server` and `alt_check` put it together again from a
handle, and leave the colon out (`antigoSucessorData`): the string they compare is never the
one that was stored.

They write the port into `char porto[8]`, which holds seven digits and the NUL. The port of an
address is any number an `int` holds, so there are handles they cannot compare (`portLimit`). The
strings for which none of this happens are those of a host and a port of at most seven digits
(`HostPort`): both calls of `strtok` find something, `atoi` is the value of the digits, and what a
handle remembers is what the string says.
-/

namespace KvStorage

open CLib

/-- The host in every address a server stores. -/
def localhost : List Byte := [49, 50, 55, 46, 48, 46, 48, 46, 49]

/-- The number a port may not reach: `%d` writes at most seven digits into `char porto[8]`. -/
def portLimit : Nat := 10 ^ 7

/-- An address that `rtable_connect` takes, with a port that `porto` has room for. -/
structure HostPort (data : CStr) (host port : List Byte) : Prop where
  bytes : data.bytes = host ++ colon :: port
  host_ne_nil : host ≠ []
  host_colon : colon ∉ host
  taken : inetPton host = true
  digits : ∀ b ∈ port, isDigit b
  positive : 0 < digitsValue port
  room : digitsValue port < portLimit

/-! ## Taking an address apart -/

/-- The part before the first colon. -/
theorem strtok_eq {host rest : List Byte} (hne : host ≠ []) (hcolon : colon ∉ host) :
    strtok (host ++ colon :: rest) = some (host, colon :: rest) := by
  obtain ⟨b, host, rfl⟩ := List.exists_cons_of_ne_nil hne
  have hall : ∀ b' ∈ b :: host, decide (b' ≠ colon) = true := by
    intro b' hb'
    rw [decide_eq_true_eq]
    exact fun heq => hcolon (heq ▸ hb')
  have hb : b ≠ colon := by simpa using hall b (List.mem_cons_self ..)
  unfold strtok
  rw [List.cons_append, List.dropWhile_cons_of_neg (by simpa using hb), ← List.cons_append]
  dsimp only
  rw [if_neg (by simp), List.takeWhile_append_of_pos hall, List.dropWhile_append_of_pos hall]
  simp

/-- The next call: what is behind the colon, to the end. -/
theorem strtok_last {port : List Byte} (hne : port ≠ []) (hcolon : colon ∉ port) :
    strtok (colon :: port) = some (port, []) := by
  obtain ⟨b, port, rfl⟩ := List.exists_cons_of_ne_nil hne
  have hall : ∀ b' ∈ b :: port, decide (b' ≠ colon) = true := by
    intro b' hb'
    rw [decide_eq_true_eq]
    exact fun heq => hcolon (heq ▸ hb')
  have hb : b ≠ colon := by simpa using hall b (List.mem_cons_self ..)
  unfold strtok
  rw [List.dropWhile_cons_of_pos (by simp), List.dropWhile_cons_of_neg (by simpa using hb)]
  dsimp only
  rw [if_neg (by simp), List.takeWhile_eq_self_iff.mpr hall, List.dropWhile_eq_nil_iff.mpr hall]

/-- What `rtable_connect` makes of a host and a port. -/
theorem rtableConnect_address {data : CStr} {host port : List Byte}
    (hbytes : data.bytes = host ++ colon :: port) (hhost : host ≠ []) (hhostColon : colon ∉ host)
    (hport : port ≠ []) (hportColon : colon ∉ port) (id : Nat) (reached : Bool) :
    rtableConnect id (some data) reached
      = if atoi port ≤ 0 then none
        else if inetPton host ∧ reached then some ⟨id, host, (atoi port).toNat⟩ else none := by
  unfold rtableConnect
  simp only [hbytes, strtok_eq hhost hhostColon, strtok_last hport hportColon]

namespace HostPort

variable {data : CStr} {host port : List Byte}

/-- The port has a digit. -/
theorem port_ne_nil (h : HostPort data host port) : port ≠ [] := by
  intro hnil
  have hpos := h.positive
  rw [hnil] at hpos
  exact absurd hpos (by decide)

theorem port_colon (h : HostPort data host port) : colon ∉ port :=
  fun hmem => absurd (h.digits _ hmem) (by decide)

/-- No sign, no blank and no overflow: the value of the digits. -/
theorem atoi_port (h : HostPort data host port) : atoi port = digitsValue port :=
  atoi_of_digits h.digits (lt_trans h.room (by decide))

/-- Such an address is taken apart without a fault, and the handle has its two parts. -/
theorem connect (h : HostPort data host port) (id : Nat) (reached : Bool) :
    rtableConnect id (some data) reached
      = if reached then some ⟨id, host, digitsValue port⟩ else none := by
  have hpos := h.positive
  have hreached : (inetPton host = true ∧ reached = true) ↔ reached = true :=
    and_iff_right h.taken
  rw [rtableConnect_address h.bytes h.host_ne_nil h.host_colon h.port_ne_nil h.port_colon,
    h.atoi_port, if_neg (by omega), Int.toNat_natCast]
  simp only [hreached]

theorem of_decimal {p : Nat} (hp : 0 < p) (hroom : p < portLimit)
    (hbytes : data.bytes = localhost ++ colon :: decimal p) :
    HostPort data localhost (decimal p) where
  bytes := hbytes
  host_ne_nil := by decide
  host_colon := by decide
  taken := by decide
  digits := isDigit_of_mem_decimal
  positive := (digitsValue_decimal p).symm ▸ hp
  room := (digitsValue_decimal p).symm ▸ hroom

end HostPort

end KvStorage
