import Mathlib.Data.List.Basic
import RetroRocket.Bits

/-!
# The answer to a DNS query

`dns_result_ready` of `dns.c` with the accesses it makes: the offsets it reads from the header of
the packet on, and the bytes it writes to the 256 bytes of the request's result. `memory` is what
lies from the header on, and only its first `length` bytes are the packet. The length comes from the
16 bits of the UDP header, so that no sum of the function leaves its 32 bits. A loop that does not
end is `none`.
-/

namespace RetroRocket

structure DnsPacket where
  memory : ℕ → Byte
  length : ℕ
  short : length < 2 ^ 16

/-- The fields of `dns_request_t` that an answer is compared with. -/
structure DnsRequest where
  type : ℕ
  rrClass : ℕ
  ttl : ℕ

/-- `resource_record_t`. -/
structure ResourceRecord where
  type : ℕ
  rrClass : ℕ
  ttl : ℕ
  rdlength : ℕ

def dnsQueryA : ℕ := 1

def dnsQueryCname : ℕ := 5

def dnsQueryPtr : ℕ := 12

def dnsQueryAaaa : ℕ := 28

def dnsHeaderSize : ℕ := 12

def dnsRrFixedSize : ℕ := 10

def dnsResultMax : ℕ := 1023

/-- `sizeof(dns_header_t)`. -/
def sizeofDnsHeader : ℕ := 524

/-! ## Accesses -/

structure DnsLog where
  reads : List ℕ
  writes : List (Byte × ℕ)

namespace DnsLog

variable {log : DnsLog} {length n o k : ℕ}

def read (log : DnsLog) (i n : ℕ) : DnsLog := { log with reads := log.reads ++ List.range' i n }

def write (log : DnsLog) (o : ℕ) (bytes : List Byte) : DnsLog :=
  { log with writes := log.writes ++ bytes.zipIdx o }

@[simp] theorem read_writes (log : DnsLog) (i n : ℕ) : (log.read i n).writes = log.writes := rfl

@[simp] theorem write_reads (log : DnsLog) (o : ℕ) (bytes : List Byte) :
    (log.write o bytes).reads = log.reads := rfl

@[simp] theorem mem_read {i : ℕ} :
    k ∈ (log.read i n).reads ↔ k ∈ log.reads ∨ i ≤ k ∧ k < i + n := by
  simp [read, List.mem_range'_1]

@[simp] theorem mem_write {bytes : List Byte} {w : Byte × ℕ} :
    w ∈ (log.write o bytes).writes ↔ w ∈ log.writes ∨ w ∈ bytes.zipIdx o := by
  simp [write]

/-- All reads are inside the packet, and all writes inside `char result[256]`. -/
structure Inside (length : ℕ) (log : DnsLog) : Prop where
  reads : ∀ k ∈ log.reads, k < length
  writes : ∀ w ∈ log.writes, w.2 < 256

/-- The first `n` bytes are written, and behind them at most a terminator. -/
structure Fills (n : ℕ) (log : DnsLog) : Prop where
  written : ∀ k < n, ∃ w ∈ log.writes, w.2 = k
  only : ∀ w ∈ log.writes, w.2 < n ∨ w = (0, n)

end DnsLog

namespace DnsPacket

/-! ## Reading the packet -/

def word (p : DnsPacket) (k : ℕ) : ℕ := 256 * (p.memory k).toNat + (p.memory (k + 1)).toNat

/-- `header->payload[i]`. -/
def payload (p : DnsPacket) (i : ℕ) : ℕ := (p.memory (dnsHeaderSize + i)).toNat

def payloadLength (p : DnsPacket) : ℕ := p.length - dnsHeaderSize

def flags1 (p : DnsPacket) : Byte := p.memory 2

def flags2 (p : DnsPacket) : Byte := p.memory 3

def qdcount (p : DnsPacket) : ℕ := p.word 4

def ancount (p : DnsPacket) : ℕ := p.word 6

def fillResourceRecord (p : DnsPacket) (i : ℕ) : ResourceRecord where
  type := p.word (dnsHeaderSize + i)
  rrClass := p.word (dnsHeaderSize + i + 2)
  ttl := 2 ^ 16 * p.word (dnsHeaderSize + i + 4) + p.word (dnsHeaderSize + i + 6)
  rdlength := p.word (dnsHeaderSize + i + 8)

def skipQuestions (p : DnsPacket) : ℕ → ℕ → ℕ → DnsLog → Option (ℕ × DnsLog)
  | 0, _, _, _ => none
  | fuel + 1, q, i, log =>
    if q < p.qdcount ∧ i < p.payloadLength then
      let log := log.read (dnsHeaderSize + i) 1
      if 63 < p.payload i then skipQuestions p fuel (q + 1) (i + 6) log
      else if p.payload i = 0 then skipQuestions p fuel (q + 1) (i + 5) log
      else skipQuestions p fuel q (i + p.payload i + 1) log
    else some (i, log)

def skipName (p : DnsPacket) : ℕ → ℕ → DnsLog → Option (ℕ × DnsLog)
  | 0, _, _ => none
  | fuel + 1, i, log =>
    if i < p.payloadLength then
      let log := log.read (dnsHeaderSize + i) 1
      if 63 < p.payload i then some (i + 2, log)
      else if p.payload i = 0 then some (i + 1, log)
      else skipName p fuel (i + p.payload i + 1) log
    else some (i, log)

/-- The loop over the answers, with what follows when none of those left is the one that was asked
for: the first alias, if there was one. -/
def findAnswer (p : DnsPacket) (request : DnsRequest) :
    ℕ → ℕ → Option (ResourceRecord × ℕ) → DnsLog →
    Option (Except String (ResourceRecord × ℕ × DnsRequest) × DnsLog)
  | 0, _, cname, log =>
    match cname with
    | some (rr, i) => some (.ok (rr, i, { request with type := dnsQueryCname }), log)
    | none => some (.error "No A, AAAA or PTR type answers", log)
  | left + 1, i, cname, log => do
    let (i, log) ← skipName p (p.payloadLength + 1) i log
    if p.payloadLength < i + dnsRrFixedSize then some (.error "Incorrectly sized DNS reply", log)
    else
      let rr := p.fillResourceRecord i
      let log := log.read (dnsHeaderSize + i) dnsRrFixedSize
      let i := i + dnsRrFixedSize
      if rr.type = dnsQueryCname ∧ request.type = dnsQueryA ∧ rr.rrClass = request.rrClass then
        if p.payloadLength < i + rr.rdlength then
          some (.error "Resource record larger than stated", log)
        else findAnswer p request left (i + rr.rdlength) (cname <|> some (rr, i)) log
      else if rr.type ≠ request.type ∨ rr.rrClass ≠ request.rrClass then
        if p.payloadLength < i + rr.rdlength then
          some (.error "Resource record larger than stated", log)
        else findAnswer p request left (i + rr.rdlength) cname log
      else some (.ok (rr, i, request), log)

/-- `memcpy(&res[o], &header->payload[i], n)`. -/
def copy (p : DnsPacket) (o i n : ℕ) (log : DnsLog) : DnsLog :=
  (log.read (dnsHeaderSize + i) n).write o
    ((List.range' (dnsHeaderSize + i) n).map p.memory)

def copyName (p : DnsPacket) : ℕ → ℕ → ℕ → ℕ → DnsLog → Option (Option String × ℕ × DnsLog)
  | 0, _, _, _, _ => none
  | fuel + 1, i, o, lowestPos, log =>
    if i < p.payloadLength ∧ o + 256 < dnsResultMax then
      let log := log.read (dnsHeaderSize + i) 1
      if 63 < p.payload i then
        let log := log.read (dnsHeaderSize + i) 2
        let ptr := p.word (dnsHeaderSize + i)
        -- the highest two bits are set
        if ptr / 2 ^ 14 ≠ 3 then some (some "DN label decompression header is bogus", o, log)
        else if ptr % 2 ^ 14 < dnsHeaderSize then
          some (some "Invalid decompression pointer", o, log)
        else
          let i := ptr % 2 ^ 14 - dnsHeaderSize
          if lowestPos ≤ i then some (some "Invalid decompression pointer", o, log)
          else copyName p fuel i o i log
      else if p.payload i = 0 then some (none, o, log)
      else
        let log := log.write o [0]
        let (o, log) := if o ≠ 0 then (o + 1, log.write o [0x2e]) else (o, log)
        if sizeofDnsHeader < o + p.payload i then
          some (some "DN label decompression is impossible -- malformed/hostile packet?", o, log)
        else
          copyName p fuel (i + p.payload i + 1) (o + p.payload i) lowestPos
            (p.copy o (i + 1) (p.payload i) log)
    else some (none, o, log)

end DnsPacket

/-- What `dns_result_ready` leaves behind. -/
structure DnsResult where
  error : Option String
  request : DnsRequest
  log : DnsLog
  outlength : ℕ

namespace DnsPacket

/-- An address of `n` bytes is copied, with a terminator behind it. -/
def copyAddress (p : DnsPacket) (request : DnsRequest) (rr : ResourceRecord) (i n : ℕ)
    (error : String) (log : DnsLog) : DnsResult :=
  if rr.rdlength ≠ n then ⟨some error, request, log, 0⟩
  else ⟨none, request, (p.copy 0 i rr.rdlength log).write rr.rdlength [0], rr.rdlength⟩

/-- A name is decompressed, with its terminator. `lowest_pos` has 16 bits, `*outlength` has 8. -/
def decompress (p : DnsPacket) (request : DnsRequest) (i : ℕ) (log : DnsLog) :
    Option DnsResult := do
  let (error, o, log) ← copyName p (2 ^ 17) i 0 (p.payloadLength % 2 ^ 16) log
  match error with
  | some error => some ⟨some error, request, log, 0⟩
  | none => some ⟨none, request, log.write o [0], (o + 1) % 2 ^ 8⟩

/-- The answer that was found, at `i`. -/
def copyAnswer (p : DnsPacket) (request : DnsRequest) (rr : ResourceRecord) (i : ℕ) (log : DnsLog) :
    Option DnsResult :=
  if p.payloadLength < i + rr.rdlength then
    some ⟨some "Resource record larger than stated", request, log, 0⟩
  else if dnsResultMax < rr.rdlength then
    some ⟨some "Resource record too large", request, log, 0⟩
  else
    let request := { request with ttl := rr.ttl }
    if rr.type = dnsQueryCname ∨ rr.type = dnsQueryPtr then p.decompress request i log
    else if rr.type = dnsQueryAaaa then
      some (p.copyAddress request rr i 16
        "rr.rdlength is larger than 16 bytes for an ipv6 entry -- malformed/hostile packet?" log)
    else if rr.type = dnsQueryA then
      some (p.copyAddress request rr i 4
        "rr.rdlength is larger than 4 bytes for an ipv4 entry -- malformed/hostile packet?" log)
    else some ⟨some "don't know how to handle undefined type -- rejecting", request, log, 0⟩

def readAnswers (p : DnsPacket) (request : DnsRequest) (log : DnsLog) : Option DnsResult := do
  let (i, log) ← skipQuestions p (p.payloadLength + 1) 0 0 log
  let (found, log) ← findAnswer p request p.ancount i none log
  match found with
  | .error error => some ⟨some error, request, log, 0⟩
  | .ok (rr, i, request) => p.copyAnswer request rr i log

/-- `dns_result_ready`. The counts are converted in place, and nobody reads them again. -/
def dnsResultReady (p : DnsPacket) (request : DnsRequest) : Option DnsResult :=
  -- `*res = 0`
  let log : DnsLog := ⟨[], [(0, 0)]⟩
  if p.length < dnsHeaderSize then some ⟨some "DNS packet shorter than header", request, log, 0⟩
  else
    let log := log.read 2 6
    if p.flags1 &&& 0x80 = 0 then some ⟨some "Not a query result", request, log, 0⟩
    else if p.flags1 &&& 0x78 ≠ 0 then
      some ⟨some "Unexpected value in DNS reply packet", request, log, 0⟩
    else if p.flags2 &&& 0x0f ≠ 0 then some ⟨some "Domain name not found", request, log, 0⟩
    else if p.ancount < 1 then some ⟨some "No resource records returned", request, log, 0⟩
    else p.readAnswers request log

end DnsPacket

end RetroRocket
