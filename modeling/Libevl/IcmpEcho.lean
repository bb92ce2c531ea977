import Libevl.InternetChecksum
import Libevl.Buffer

/-!
# Replies to ICMP echo requests

`oob-net-icmp` receives frames into one buffer, again and again, and builds its
replies in another one. It checks the kind of a frame and its least length, but it
takes the length of the data from the IP header: this may exceed what was received,
and even the buffers. Buffers have `ETHER_MAX_LEN` bytes, and the byte order is the
one of a little-endian host. What reads or writes outside of a buffer has no result.
-/
namespace Libevl.IcmpEcho
open InternetChecksum Buffer

def etherMaxLen : ℕ := 1518
def ethHlen : ℕ := 14
def ethAlen : ℕ := 6
def ipprotoIcmp : ℕ := 1
def icmpEcho : ℕ := 8

/-- The sizes of `struct ip` and of `struct icmphdr`. -/
def sizeofIp : ℕ := 20
def sizeofIcmphdr : ℕ := 8

def byteAt (l : Bytes) (k : ℕ) : ℕ := (l.getD k 0).toNat
def part (l : Bytes) (off n : ℕ) : Bytes := (l.drop off).take n

/-- The bytes that `htons` puts a number into. -/
def netBytes (w : ℕ) : Bytes := [BitVec.ofNat 8 (w / 256), BitVec.ofNat 8 w]

/-- The first loop of `ip_checksum`, and the odd byte behind it. -/
def sumLoop : ℕ → Bytes → ℕ
  | sum, [] => sum
  | sum, [a] => (sum + a.toNat) % 2 ^ 32
  | sum, a :: b :: l => sumLoop ((sum + (a.toNat + 256 * b.toNat)) % 2 ^ 32) l

/-- `ip_checksum`. -/
def ipChecksum (buf : Bytes) : ℕ := (2 ^ 32 - 1 - foldCarry (sumLoop 0 buf)) % 2 ^ 16

/-- `check_icmp_request`, without the printing. -/
def checkIcmpRequest (i : Bytes) (len : ℕ) : Option Bool :=
  if len < ethHlen + sizeofIp + sizeofIcmphdr then some false
  else (read i ethHlen sizeofIp).map fun iphdr =>
    if byteAt iphdr 0 % 16 ≠ 5 ∨ byteAt iphdr 0 / 16 ≠ 4 then false
    else if byteAt iphdr 9 ≠ ipprotoIcmp then false
    else true

/-- The IP header of a reply, with some checksum. -/
def ipHeader (len : ℕ) (id src dst : Bytes) (sum : ℕ) : Bytes :=
  [0x45, 0] ++ netBytes len ++ id ++ netBytes 0x4000 ++ [64, BitVec.ofNat 8 ipprotoIcmp] ++
    (hostBytes sum ++ (src ++ dst))

/-- The part of `build_icmp_reply` that fills the reply in: the buffer, and the length of the
frame. `n` is `datalen` as `memcpy` takes it. -/
def fillReply (o i sIp sIcmp dstMac srcMac : Bytes) : Option (Bytes × ℕ) := do
  let datalen : ℤ := (256 * byteAt sIp 2 + byteAt sIp 3 : ℕ) - (sizeofIp + sizeofIcmphdr : ℕ)
  let n := (datalen % 2 ^ 64).toNat
  let o ← write o 0 dstMac
  let o ← write o ethAlen srcMac
  let o ← write o (ethHlen - 2) [0x08, 0x00]
  let header := ipHeader ((sizeofIp + sizeofIcmphdr : ℕ) + datalen).toNat (part sIp 4 2)
    (part sIp 16 4) (part sIp 12 4)
  let o ← write o ethHlen (header (ipChecksum (header 0)))
  let o ← write o (ethHlen + sizeofIp) ([0, 0] ++ (hostBytes 0 ++ part sIcmp 4 4))
  let data ← read i (ethHlen + sizeofIp + sizeofIcmphdr) n
  let o ← write o (ethHlen + sizeofIp + sizeofIcmphdr) data
  let msg ← read o (ethHlen + sizeofIp) (sizeofIcmphdr + n)
  let o ← write o (ethHlen + sizeofIp + 2) (hostBytes (ipChecksum msg))
  return (o, ethHlen + sizeofIp + sizeofIcmphdr + n)

/-- `build_icmp_reply`: the reply buffer, and the length of the frame or `-EPROTO`. -/
def buildIcmpReply (o i : Bytes) (len : ℕ) (dstMac srcMac : Bytes) :
    Option (Bytes × Option ℕ) := do
  let ok ← checkIcmpRequest i len
  if ok = false then some (o, none)
  else do
    let sIp ← read i ethHlen sizeofIp
    let sIcmp ← read i (ethHlen + sizeofIp) sizeofIcmphdr
    if byteAt sIcmp 0 ≠ icmpEcho then some (o, none)
    else (fillReply o i sIp sIcmp dstMac srcMac).map fun (o, n) => (o, some n)

/-- Both buffers of `main`. -/
structure Frames where
  iFrame : Bytes
  oFrame : Bytes
  deriving DecidableEq, Repr

/-- A turn of the loop of `main`: a packet with the address it came from, and the frame sent. -/
def serve (hwaddr : Bytes) (s : Frames) (pkt : Bytes × Bytes) : Option (Frames × Option Bytes) := do
  let got := pkt.1.take etherMaxLen
  let i ← write s.iFrame 0 got
  let (o, count) ← buildIcmpReply s.oFrame i got.length pkt.2 hwaddr
  match count with
  | none => return (⟨i, o⟩, none)
  | some n =>
    let sent ← read o 0 n
    return (⟨i, o⟩, some sent)

/-- The frames sent for some packets, in turn. -/
def serveAll (hwaddr : Bytes) : Frames → List (Bytes × Bytes) →
    Option (Frames × List (Option Bytes))
  | s, [] => some (s, [])
  | s, pkt :: pkts => do
    let (s, r) ← serve hwaddr s pkt
    let (s, rs) ← serveAll hwaddr s pkts
    return (s, r :: rs)

section Checksum

variable {buf : Bytes} {sum : ℕ}

theorem hostSum_le (buf : Bytes) : hostSum buf ≤ 32768 * (buf.length + 1) := by
  induction buf using hostSum.induct with
  | case1 => simp [hostSum]
  | case2 a =>
    have := a.isLt
    simp only [hostSum, List.length_cons, List.length_nil]
    omega
  | case3 a b l ih =>
    have := a.isLt
    have := b.isLt
    simp only [hostSum, List.length_cons] at ih ⊢
    omega

theorem sumLoop_eq (h : sum + hostSum buf < 2 ^ 32) : sumLoop sum buf = sum + hostSum buf := by
  induction sum, buf using sumLoop.induct with
  | case1 sum => rfl
  | case2 sum a => exact Nat.mod_eq_of_lt h
  | case3 sum a b l ih =>
    rw [hostSum] at h ⊢
    rw [Nat.mod_eq_of_lt (by omega)] at ih
    rw [sumLoop, Nat.mod_eq_of_lt (by omega), ih (by omega)]
    omega

/-- No carry leaves the 32 bits of the sum for data of the length of a packet. -/
theorem ipChecksum_eq (h : buf.length < 2 ^ 16) :
    ipChecksum buf = 2 ^ 16 - 1 - foldCarry (hostSum buf) := by
  have hle := hostSum_le buf
  have hfold := foldCarry_lt (hostSum buf)
  rw [ipChecksum, sumLoop_eq (by omega), Nat.zero_add]
  omega

end Checksum

section Reply

variable {o i : Bytes} {len : ℕ} {dstMac srcMac : Bytes}

/-- The length of the IP packet, as its header has it. -/
def ipLen (i : Bytes) : ℕ := 256 * byteAt i 16 + byteAt i 17

/-- A frame that is taken for an echo request. -/
def IsEcho (i : Bytes) (len : ℕ) : Prop :=
  42 ≤ len ∧ byteAt i 14 = 0x45 ∧ byteAt i 23 = ipprotoIcmp ∧ byteAt i 34 = icmpEcho

instance : Decidable (IsEcho i len) := inferInstanceAs (Decidable (_ ∧ _))

theorem byteAt_part (l : Bytes) {off n k : ℕ} (h : k < n) :
    byteAt (part l off n) k = byteAt l (off + k) := by
  simp [byteAt, part, List.getD_eq_getElem?_getD, h, List.getElem?_drop]

theorem part_part (l : Bytes) {off n off' n' : ℕ} (h : off' + n' ≤ n) :
    part (part l off n) off' n' = part l (off + off') n' := by
  rw [part, part, part, List.drop_take, List.take_take, List.drop_drop, Nat.min_eq_left (by omega)]

theorem length_part {l : Bytes} {off n : ℕ} (h : off + n ≤ l.length) : (part l off n).length = n := by
  simp only [part, List.length_take, List.length_drop]
  omega

theorem read_eq_part {l : Bytes} {off n : ℕ} (h : off + n ≤ l.length) :
    read l off n = some (part l off n) := read_of_le h

theorem byteAt_lt (l : Bytes) (k : ℕ) : byteAt l k < 256 := (l.getD k 0).isLt

theorem checkIcmpRequest_eq (hi : i.length = etherMaxLen) :
    checkIcmpRequest i len =
      some (decide (42 ≤ len ∧ byteAt i 14 = 0x45 ∧ byteAt i 23 = ipprotoIcmp)) := by
  rw [etherMaxLen] at hi
  unfold checkIcmpRequest
  by_cases hlen : len < ethHlen + sizeofIp + sizeofIcmphdr
  · rw [if_pos hlen]
    simp only [ethHlen, sizeofIp, sizeofIcmphdr] at hlen
    simp [show ¬ 42 ≤ len by omega]
  · have hlt := byteAt_lt i 14
    have hver : byteAt i 14 % 16 ≠ 5 ∨ byteAt i 14 / 16 ≠ 4 ↔ byteAt i 14 ≠ 0x45 := by omega
    rw [if_neg hlen]
    simp only [ethHlen, sizeofIp, sizeofIcmphdr] at hlen ⊢
    rw [read_eq_part (by omega), Option.map_some, byteAt_part i (by decide),
      byteAt_part i (by decide)]
    simp only [Nat.add_zero, hver]
    by_cases h₁ : byteAt i 14 = 0x45
    · simp [h₁, show 42 ≤ len by omega]
    · simp [h₁]

/-- An echo request is answered, any other frame is dropped. -/
theorem buildIcmpReply_eq (hi : i.length = etherMaxLen) :
    buildIcmpReply o i len dstMac srcMac =
      if IsEcho i len then
        (fillReply o i (part i 14 20) (part i 34 8) dstMac srcMac).map fun (o, n) => (o, some n)
      else some (o, none) := by
  unfold buildIcmpReply
  rw [checkIcmpRequest_eq hi]
  rw [etherMaxLen] at hi
  simp only [ethHlen, sizeofIp, sizeofIcmphdr, Option.bind_eq_bind, Option.bind_some]
  rw [read_eq_part (by omega), read_eq_part (by omega), Option.bind_some, Option.bind_some,
    byteAt_part i (by decide)]
  by_cases hok : 42 ≤ len ∧ byteAt i 14 = 0x45 ∧ byteAt i 23 = ipprotoIcmp
  · rw [decide_eq_true hok, if_neg (by decide)]
    by_cases htype : byteAt i 34 = icmpEcho
    · rw [if_neg (not_not.mpr htype), if_pos ⟨hok.1, hok.2.1, hok.2.2, htype⟩]
    · rw [if_pos htype, if_neg fun h => htype h.2.2.2]
  · rw [decide_eq_false hok, if_pos rfl, if_neg fun h => hok ⟨h.1, h.2.1, h.2.2.1⟩]

/-- The frame of a reply, up to the end of the IP header. -/
def replyHead (i dstMac srcMac : Bytes) : Bytes :=
  dstMac ++ srcMac ++ [0x08, 0x00] ++
    ipHeader (ipLen i) (part i 18 2) (part i 30 4) (part i 26 4)
      (ipChecksum (ipHeader (ipLen i) (part i 18 2) (part i 30 4) (part i 26 4) 0))

/-- The ICMP message of a reply, with some checksum: the rest is the request's. -/
def replyMessage (i : Bytes) (sum : ℕ) : Bytes :=
  [0, 0] ++ (hostBytes sum ++ part i 38 (ipLen i - 24))

/-- The frame of a reply. -/
def reply (i dstMac srcMac : Bytes) : Bytes :=
  replyHead i dstMac srcMac ++ replyMessage i (ipChecksum (replyMessage i 0))

theorem length_ipHeader {len sum : ℕ} {id src dst : Bytes} (hid : id.length = 2)
    (hsrc : src.length = 4) (hdst : dst.length = 4) :
    (ipHeader len id src dst sum).length = 20 := by
  simp [ipHeader, netBytes, hostBytes, hid, hsrc, hdst]

theorem part_append_part (l : Bytes) (off n n' : ℕ) :
    part l off n ++ part l (off + n) n' = part l off (n + n') := by
  rw [part, part, part, List.take_add, List.drop_drop]

theorem replyMessage_eq (i : Bytes) (sum n : ℕ) (hn : ipLen i = 28 + n) :
    replyMessage i sum =
      [0, 0] ++ (hostBytes sum ++ (part (part i 34 8) 4 4 ++ part i 42 n)) := by
  rw [part_part i (by decide), part_append_part, replyMessage, hn,
    show 28 + n - 24 = 4 + n by omega]

/-- The reply to a request of which the length is within the bounds. -/
theorem fillReply_eq (ho : o.length = etherMaxLen) (hi : i.length = etherMaxLen)
    (hd : dstMac.length = 6) (hs : srcMac.length = 6) (hmin : 28 ≤ ipLen i)
    (hmax : ipLen i ≤ 1504) :
    ∃ rest, fillReply o i (part i 14 20) (part i 34 8) dstMac srcMac =
        some (reply i dstMac srcMac ++ rest, 14 + ipLen i) ∧
      14 + ipLen i + rest.length = etherMaxLen := by
  rw [etherMaxLen] at ho hi ⊢
  have hlen : 256 * byteAt (part i 14 20) 2 + byteAt (part i 14 20) 3 = ipLen i := by
    rw [byteAt_part i (by decide), byteAt_part i (by decide), ipLen]
  obtain ⟨n, hn⟩ : ∃ n, ipLen i = 28 + n := ⟨ipLen i - 28, by omega⟩
  have hdata : (((ipLen i : ℕ) - (28 : ℕ) : ℤ) % 2 ^ 64).toNat = n := by omega
  have htotal : ((28 : ℕ) + ((ipLen i : ℕ) - (28 : ℕ)) : ℤ).toNat = ipLen i := by omega
  -- the buffer, cut where the parts of a reply begin
  obtain ⟨a, o₁, rfl, ha⟩ := exists_split (show 6 ≤ o.length by omega)
  rw [List.length_append] at ho
  obtain ⟨b, o₂, rfl, hb⟩ := exists_split (show 6 ≤ o₁.length by omega)
  rw [List.length_append] at ho
  obtain ⟨t, o₃, rfl, ht⟩ := exists_split (show 2 ≤ o₂.length by omega)
  rw [List.length_append] at ho
  obtain ⟨h, o₄, rfl, hh⟩ := exists_split (show 20 ≤ o₃.length by omega)
  rw [List.length_append] at ho
  obtain ⟨c, o₅, rfl, hc⟩ := exists_split (show 8 ≤ o₄.length by omega)
  rw [List.length_append] at ho
  obtain ⟨x, rest, rfl, hx⟩ := exists_split (show n ≤ o₅.length by omega)
  rw [List.length_append] at ho
  refine ⟨rest, ?_, by omega⟩
  unfold fillReply
  simp only [ethHlen, ethAlen, sizeofIp, sizeofIcmphdr, hlen]
  rw [show ((20 + 8 : ℕ) : ℤ) = (28 : ℕ) from rfl, hdata, htotal, part_part i (by decide),
    part_part i (by decide), part_part i (by decide), part_part i (by decide)]
  generalize hH : ipHeader (ipLen i) (part i (14 + 4) 2) (part i (14 + 16) 4)
    (part i (14 + 12) 4) = H
  have hHlen : ∀ sum, (H sum).length = 20 := fun sum => by
    rw [← hH]
    exact length_ipHeader (length_part (by omega)) (length_part (by omega))
      (length_part (by omega))
  have hidlen : (part i (34 + 4) 4).length = 4 := length_part (by omega)
  have hdatalen : (part i 42 n).length = n := length_part (by omega)
  have hw₁ : write (a ++ (b ++ (t ++ (h ++ (c ++ (x ++ rest)))))) 0 dstMac =
      some (dstMac ++ (b ++ (t ++ (h ++ (c ++ (x ++ rest)))))) :=
    write_part (a := []) rfl rfl (by omega)
  have hw₂ : write (dstMac ++ (b ++ (t ++ (h ++ (c ++ (x ++ rest)))))) 6 srcMac =
      some (dstMac ++ (srcMac ++ (t ++ (h ++ (c ++ (x ++ rest)))))) :=
    write_part rfl hd (by omega)
  have hw₃ : write (dstMac ++ (srcMac ++ (t ++ (h ++ (c ++ (x ++ rest)))))) 12 [0x08, 0x00] =
      some ((dstMac ++ srcMac) ++ ([0x08, 0x00] ++ (h ++ (c ++ (x ++ rest))))) :=
    write_part (b := t) (by simp) (by simp [hd, hs]) (by simp [ht])
  have hw₄ : write ((dstMac ++ srcMac) ++ ([0x08, 0x00] ++ (h ++ (c ++ (x ++ rest))))) 14
      (H (ipChecksum (H 0))) =
      some ((dstMac ++ srcMac ++ [0x08, 0x00]) ++ (H (ipChecksum (H 0)) ++ (c ++ (x ++ rest)))) :=
    write_part (b := h) (by simp) (by simp [hd, hs]) (by rw [hHlen, hh])
  have hw₅ : write ((dstMac ++ srcMac ++ [0x08, 0x00]) ++
      (H (ipChecksum (H 0)) ++ (c ++ (x ++ rest)))) 34
      ([0, 0] ++ (hostBytes 0 ++ part i (34 + 4) 4)) =
      some (replyHead i dstMac srcMac ++
        (([0, 0] ++ (hostBytes 0 ++ part i (34 + 4) 4)) ++ (x ++ rest))) := by
    rw [replyHead, hH]
    exact write_part (b := c) (by simp) (by simp [hd, hs, hHlen]) (by simp [hostBytes, hc, hidlen])
  have hhead : (replyHead i dstMac srcMac).length = 34 := by
    rw [replyHead, hH]
    simp [hd, hs, hHlen]
  have hmsg : ∀ sum, replyMessage i sum =
      [0, 0] ++ (hostBytes sum ++ (part i (34 + 4) 4 ++ part i 42 n)) := fun sum => by
    rw [replyMessage_eq i sum n hn, part_part i (by decide)]
  have hw₆ : write (replyHead i dstMac srcMac ++
      (([0, 0] ++ (hostBytes 0 ++ part i (34 + 4) 4)) ++ (x ++ rest))) 42 (part i 42 n) =
      some (replyHead i dstMac srcMac ++ (replyMessage i 0 ++ rest)) := by
    rw [hmsg, write_part (a := replyHead i dstMac srcMac ++
      ([0, 0] ++ (hostBytes 0 ++ part i (34 + 4) 4))) (b := x) (c := rest) (by simp)
      (by simp [hhead, hostBytes, hidlen]) (by rw [hx, hdatalen])]
    simp
  have hread : read (replyHead i dstMac srcMac ++ (replyMessage i 0 ++ rest)) 34 (8 + n) =
      some (replyMessage i 0) :=
    read_part rfl hhead (by rw [hmsg]; simp [hostBytes, hidlen, hdatalen]; omega)
  have hw₇ : ∀ sum, write (replyHead i dstMac srcMac ++ (replyMessage i 0 ++ rest)) 36
      (hostBytes sum) = some (replyHead i dstMac srcMac ++ (replyMessage i sum ++ rest)) := by
    intro sum
    rw [hmsg, hmsg, write_part (a := replyHead i dstMac srcMac ++ [0, 0]) (b := hostBytes 0)
      (c := part i (34 + 4) 4 ++ part i 42 n ++ rest) (by simp) (by simp [hhead])
      (by simp [hostBytes])]
    simp
  simp only [Option.bind_eq_bind, Option.bind_some, hw₁, hw₂, hw₃, hw₄, hw₅, hw₆, hread, hw₇,
    read_eq_part (show 42 + n ≤ i.length by omega), Nat.reduceAdd, Nat.reduceSub]
  rw [show 42 + n = 14 + ipLen i by omega, reply, List.append_assoc]
  rfl

/-- Lengths beyond these bounds lead out of the buffers. -/
theorem fillReply_eq_none (hi : i.length = etherMaxLen)
    (h : ipLen i < 28 ∨ 1504 < ipLen i) :
    fillReply o i (part i 14 20) (part i 34 8) dstMac srcMac = none := by
  have hlen : 256 * byteAt (part i 14 20) 2 + byteAt (part i 14 20) 3 = ipLen i := by
    rw [byteAt_part i (by decide), byteAt_part i (by decide), ipLen]
  have hlt : ipLen i < 2 ^ 16 := by
    have h₁ := byteAt_lt i 16
    have h₂ := byteAt_lt i 17
    rw [ipLen]
    omega
  have hread : read i 42 (((ipLen i : ℕ) - (28 : ℕ) : ℤ) % 2 ^ 64).toNat = none := by
    rw [Buffer.read, if_neg]
    rw [hi, etherMaxLen]
    omega
  unfold fillReply
  simp only [ethHlen, ethAlen, sizeofIp, sizeofIcmphdr, hlen]
  rw [show ((20 + 8 : ℕ) : ℤ) = (28 : ℕ) from rfl, hread]
  simp

/-- The program stays within its buffers unless an echo request has an IP length below its
headers' or beyond the buffers. -/
theorem buildIcmpReply_isSome_iff (ho : o.length = etherMaxLen) (hi : i.length = etherMaxLen)
    (hd : dstMac.length = 6) (hs : srcMac.length = 6) :
    (buildIcmpReply o i len dstMac srcMac).isSome ↔
      (IsEcho i len → 28 ≤ ipLen i ∧ ipLen i ≤ 1504) := by
  rw [buildIcmpReply_eq hi]
  by_cases hecho : IsEcho i len
  · rw [if_pos hecho, Option.isSome_map]
    by_cases hlen : 28 ≤ ipLen i ∧ ipLen i ≤ 1504
    · obtain ⟨rest, hrun, -⟩ := fillReply_eq ho hi hd hs hlen.1 hlen.2
      simp [hrun, hlen]
    · rw [fillReply_eq_none hi (by omega)]
      simp [hecho, hlen]
  · simp [hecho]

theorem part_mid {l a b c : Bytes} {off n : ℕ} (h : l = a ++ (b ++ c)) (ha : a.length = off)
    (hb : b.length = n) : part l off n = b := by
  subst h ha hb
  rw [part, List.drop_left, List.take_left]

/-- What a receiver reads from the header. -/
theorem ipHeader_fields {len sum : ℕ} : ∀ {id src dst : Bytes}, id.length = 2 → src.length = 4 →
    dst.length = 4 →
    byteAt (ipHeader len id src dst sum) 0 = 0x45 ∧
    byteAt (ipHeader len id src dst sum) 2 = len / 256 % 256 ∧
    byteAt (ipHeader len id src dst sum) 3 = len % 256 ∧
    part (ipHeader len id src dst sum) 4 2 = id ∧
    byteAt (ipHeader len id src dst sum) 9 = ipprotoIcmp ∧
    part (ipHeader len id src dst sum) 12 4 = src ∧
    part (ipHeader len id src dst sum) 16 4 = dst
  | [_, _], [_, _, _, _], [_, _, _, _], _, _, _ => ⟨rfl, rfl, rfl, rfl, rfl, rfl, rfl⟩

theorem verifies_ipHeader {len : ℕ} {id src dst : Bytes} (hid : id.length = 2)
    (hsrc : src.length = 4) (hdst : dst.length = 4) :
    Verifies (ipHeader len id src dst (ipChecksum (ipHeader len id src dst 0))) := by
  refine verifies_of_checksum (by simp [netBytes, hid]) (ipChecksum_eq ?_)
  rw [length_ipHeader hid hsrc hdst]
  decide

theorem verifies_replyMessage (hmax : ipLen i ≤ 1504) :
    Verifies (replyMessage i (ipChecksum (replyMessage i 0))) := by
  refine verifies_of_checksum rfl (ipChecksum_eq ?_)
  have hle : (part i 38 (ipLen i - 24)).length ≤ ipLen i - 24 := by
    simp only [part, List.length_take]
    omega
  simp only [replyMessage, hostBytes, List.length_append, List.length_cons, List.length_nil]
  omega

/-- A frame which answers an echo request: the addresses are exchanged, the message is the same
with another type, and both checksums are right. -/
structure Answers (i f dstMac srcMac : Bytes) : Prop where
  length : f.length = 14 + ipLen i
  ether : part f 0 14 = dstMac ++ srcMac ++ [0x08, 0x00]
  version : byteAt f 14 = 0x45
  len : ipLen f = ipLen i
  id : part f 18 2 = part i 18 2
  proto : byteAt f 23 = ipprotoIcmp
  src : part f 26 4 = part i 30 4
  dst : part f 30 4 = part i 26 4
  header : Verifies (part f 14 20)
  type : byteAt f 34 = 0 ∧ byteAt f 35 = 0
  data : part f 38 (ipLen i - 24) = part i 38 (ipLen i - 24)
  message : Verifies (f.drop 34)

theorem answers_reply (hi : i.length = etherMaxLen) (hd : dstMac.length = 6)
    (hs : srcMac.length = 6) (hmin : 28 ≤ ipLen i) (hmax : ipLen i ≤ 1504) :
    Answers i (reply i dstMac srcMac) dstMac srcMac := by
  unfold reply
  rw [etherMaxLen] at hi
  have hid : (part i 18 2).length = 2 := length_part (by omega)
  have hsrc : (part i 30 4).length = 4 := length_part (by omega)
  have hdst : (part i 26 4).length = 4 := length_part (by omega)
  have hdata : (part i 38 (ipLen i - 24)).length = ipLen i - 24 := length_part (by omega)
  have hlt : ipLen i < 2 ^ 16 := by omega
  have hHlen := fun sum => @length_ipHeader (ipLen i) sum _ _ _ hid hsrc hdst
  have hheader := @verifies_ipHeader (ipLen i) _ _ _ hid hsrc hdst
  have hmessage := verifies_replyMessage (i := i) hmax
  generalize hsum : ipChecksum (replyMessage i 0) = sum at hmessage ⊢
  unfold replyHead
  generalize hc : ipChecksum (ipHeader (ipLen i) (part i 18 2) (part i 30 4) (part i 26 4) 0) = c
    at hheader ⊢
  obtain ⟨hversion, hhi, hlo, hident, hproto, hfrom, hto⟩ :=
    @ipHeader_fields (ipLen i) c _ _ _ hid hsrc hdst
  generalize hH : ipHeader (ipLen i) (part i 18 2) (part i 30 4) (part i 26 4) c = H at *
  have hH20 : H.length = 20 := hH ▸ hHlen c
  have hM : (replyMessage i sum).length = ipLen i - 20 := by
    simp only [replyMessage, hostBytes, List.length_append, List.length_cons, List.length_nil,
      hdata]
    omega
  generalize hf : dstMac ++ srcMac ++ [0x08, 0x00] ++ H ++ replyMessage i sum = f
  have hether : part f 0 14 = dstMac ++ srcMac ++ [0x08, 0x00] :=
    part_mid (a := []) (c := H ++ replyMessage i sum) (by simp [← hf]) rfl (by simp [hd, hs])
  have hip : part f 14 20 = H :=
    part_mid (a := dstMac ++ srcMac ++ [0x08, 0x00]) (c := replyMessage i sum) (by simp [← hf])
      (by simp [hd, hs]) hH20
  have hicmp : f.drop 34 = replyMessage i sum := by
    rw [← hf]
    exact List.drop_left' (by simp [hd, hs, hH20])
  have hipByte : ∀ k < 20, byteAt f (14 + k) = byteAt H k := fun k hk => by
    rw [← byteAt_part f hk, hip]
  have hipPart : ∀ off n, off + n ≤ 20 → part f (14 + off) n = part H off n := fun off n h => by
    rw [← part_part f h, hip]
  have hicmpByte : ∀ k, byteAt f (34 + k) = byteAt (replyMessage i sum) k := fun k => by
    rw [← hicmp, byteAt, byteAt, List.getD_eq_getElem?_getD, List.getD_eq_getElem?_getD,
      List.getElem?_drop]
  exact {
    length := by
      rw [← hf, List.length_append, hM]
      simp [hd, hs, hH20]
      omega
    ether := hether
    version := (hipByte 0 (by decide)).trans hversion
    len := by
      rw [ipLen, show byteAt f 16 = _ from hipByte 2 (by decide),
        show byteAt f 17 = _ from hipByte 3 (by decide), hhi, hlo]
      omega
    id := (hipPart 4 2 (by decide)).trans hident
    proto := (hipByte 9 (by decide)).trans hproto
    src := (hipPart 12 4 (by decide)).trans hfrom
    dst := (hipPart 16 4 (by decide)).trans hto
    header := by rwa [hip]
    type := ⟨hicmpByte 0, hicmpByte 1⟩
    data := by
      have : part f 38 (ipLen i - 24) = part (f.drop 34) 4 (ipLen i - 24) := by
        rw [part, part, List.drop_drop]
      rw [this, hicmp]
      exact part_mid (a := [0, 0] ++ hostBytes sum) (c := []) (by simp [replyMessage]) rfl hdata
    message := by rwa [hicmp] }

/-- Every echo request whose length is within the bounds is answered, and the answer of one
station is never answered by another. -/
theorem reply_answers (ho : o.length = etherMaxLen) (hi : i.length = etherMaxLen)
    (hd : dstMac.length = 6) (hs : srcMac.length = 6) (hecho : IsEcho i len) (hmin : 28 ≤ ipLen i)
    (hmax : ipLen i ≤ 1504) :
    ∃ rest, buildIcmpReply o i len dstMac srcMac =
        some (reply i dstMac srcMac ++ rest, some (14 + ipLen i)) ∧
      (reply i dstMac srcMac ++ rest).length = etherMaxLen ∧
      Answers i (reply i dstMac srcMac) dstMac srcMac ∧
      ∀ o' i' len' mac mac', i'.length = etherMaxLen → reply i dstMac srcMac <+: i' →
        buildIcmpReply o' i' len' mac mac' = some (o', none) := by
  obtain ⟨rest, hrun, hrest⟩ := fillReply_eq ho hi hd hs hmin hmax
  have hans := answers_reply hi hd hs hmin hmax
  refine ⟨rest, ?_, ?_, hans, ?_⟩
  · rw [buildIcmpReply_eq hi, if_pos hecho, hrun, Option.map_some]
  · rw [List.length_append, hans.length, hrest]
  · intro o' i' len' mac mac' hi' ⟨r, hr⟩
    rw [buildIcmpReply_eq hi', if_neg]
    intro h
    have htype : byteAt i' 34 = 0 := by
      have hlt : 34 < (reply i dstMac srcMac).length := by
        rw [hans.length]
        omega
      rw [← hans.type.1, ← hr, byteAt, byteAt, List.getD_eq_getElem?_getD,
        List.getD_eq_getElem?_getD, List.getElem?_append_left hlt]
    rw [IsEcho, htype] at h
    exact absurd h.2.2.2 (by decide)

/-- A request of 42 bytes, with some length in its IP header. -/
def request (len : ℕ) : Bytes :=
  List.replicate 14 0 ++ ([0x45, 0] ++ netBytes len ++ [0, 0, 0, 0, 64, 1, 0, 0] ++
    [10, 0, 0, 1, 10, 0, 0, 2]) ++ [8, 0, 0, 0, 0, 1, 0, 2]

theorem reply_answers_request : ∃ rest,
    buildIcmpReply (List.replicate etherMaxLen 0) (request 30 ++ List.replicate 1476 9) 44
        [1, 2, 3, 4, 5, 6] [6, 5, 4, 3, 2, 1] =
      some (reply (request 30 ++ List.replicate 1476 9) [1, 2, 3, 4, 5, 6] [6, 5, 4, 3, 2, 1] ++
        rest, some 44) ∧
    Answers (request 30 ++ List.replicate 1476 9)
      (reply (request 30 ++ List.replicate 1476 9) [1, 2, 3, 4, 5, 6] [6, 5, 4, 3, 2, 1])
      [1, 2, 3, 4, 5, 6] [6, 5, 4, 3, 2, 1] ∧
    ∀ o len mac mac', buildIcmpReply o
      (reply (request 30 ++ List.replicate 1476 9) [1, 2, 3, 4, 5, 6] [6, 5, 4, 3, 2, 1] ++ rest)
      len mac mac' = some (o, none) := by
  have hi : (request 30 ++ List.replicate 1476 (9 : BitVec 8)).length = etherMaxLen := by
    rw [List.length_append, List.length_replicate]
    rfl
  obtain ⟨rest, hrun, hfull, hans, hno⟩ := reply_answers
    (List.length_replicate (n := etherMaxLen) (a := (0 : BitVec 8))) hi
    (show ([1, 2, 3, 4, 5, 6] : Bytes).length = 6 from rfl)
    (show ([6, 5, 4, 3, 2, 1] : Bytes).length = 6 from rfl)
    (show IsEcho _ 44 by decide) (by decide) (by decide)
  exact ⟨rest, hrun, hans, fun o len mac mac' => hno o _ len mac mac' hfull ⟨rest, rfl⟩⟩

end Reply

section Run

variable {hwaddr : Bytes} {s s' : Frames} {pkt : Bytes × Bytes} {r : Option Bytes}
  {ps : List (Bytes × Bytes)} {rs : List (Option Bytes)}

/-- Buffers of their length. -/
def Frames.Full (s : Frames) : Prop :=
  s.iFrame.length = etherMaxLen ∧ s.oFrame.length = etherMaxLen

/-- What is received covers the start of the buffer. -/
def overlay (i pkt : Bytes) : Bytes :=
  pkt.take etherMaxLen ++ i.drop (pkt.take etherMaxLen).length

theorem length_overlay {i p : Bytes} (hi : i.length = etherMaxLen) :
    (overlay i p).length = etherMaxLen := by
  simp only [overlay, List.length_append, List.length_take, List.length_drop, hi]
  omega

theorem getD_overlay (i p : Bytes) {k : ℕ} (hk : k < etherMaxLen) :
    (overlay i p).getD k 0 = if k < p.length then p.getD k 0 else i.getD k 0 := by
  simp only [overlay, List.getD_eq_getElem?_getD, List.getElem?_append, List.length_take,
    List.getElem?_take, List.getElem?_drop]
  split_ifs with h₁ h₂ h₂
  · rfl
  · omega
  · omega
  · rw [show min etherMaxLen p.length + (k - min etherMaxLen p.length) = k by omega]

/-- One turn: the buffer keeps what the packet does not cover, and a request is answered. -/
theorem serve_spec (hs : s.Full) (hd : pkt.2.length = 6) (hw : hwaddr.length = 6)
    (h : serve hwaddr s pkt = some (s', r)) :
    s'.Full ∧ s'.iFrame = overlay s.iFrame pkt.1 ∧
      (∀ f, r = some f → IsEcho s'.iFrame (pkt.1.take etherMaxLen).length ∧
        28 ≤ ipLen s'.iFrame ∧ ipLen s'.iFrame ≤ 1504 ∧ f = reply s'.iFrame pkt.2 hwaddr) ∧
      (r = none → ¬ IsEcho s'.iFrame (pkt.1.take etherMaxLen).length) := by
  obtain ⟨hi, ho⟩ := hs
  have hle : 0 + (pkt.1.take etherMaxLen).length ≤ s.iFrame.length := by
    rw [hi, List.length_take]
    omega
  have hover : write s.iFrame 0 (pkt.1.take etherMaxLen) = some (overlay s.iFrame pkt.1) := by
    rw [write, if_pos hle]
    simp [overlay]
  have hi' := length_overlay (p := pkt.1) hi
  unfold serve at h
  simp only [hover, Option.bind_eq_bind, Option.bind_some] at h
  by_cases hecho : IsEcho (overlay s.iFrame pkt.1) (pkt.1.take etherMaxLen).length
  · by_cases hlen : 28 ≤ ipLen (overlay s.iFrame pkt.1) ∧ ipLen (overlay s.iFrame pkt.1) ≤ 1504
    · obtain ⟨rest, hrun, hfull, hans, -⟩ := reply_answers ho hi' hd hw hecho hlen.1 hlen.2
      have hread : read (reply (overlay s.iFrame pkt.1) pkt.2 hwaddr ++ rest) 0
          (14 + ipLen (overlay s.iFrame pkt.1)) =
          some (reply (overlay s.iFrame pkt.1) pkt.2 hwaddr) :=
        read_part (a := []) rfl rfl hans.length
      simp only [hrun, Option.bind_some, hread, Option.pure_def, Option.some.injEq,
        Prod.mk.injEq] at h
      obtain ⟨rfl, rfl⟩ := h
      refine ⟨⟨hi', hfull⟩, rfl, fun f hf => ?_, fun hnone =>
        absurd hnone (Option.some_ne_none _)⟩
      cases hf
      exact ⟨hecho, hlen.1, hlen.2, rfl⟩
    · have hnone : buildIcmpReply s.oFrame (overlay s.iFrame pkt.1)
          (pkt.1.take etherMaxLen).length pkt.2 hwaddr = none :=
        Option.not_isSome_iff_eq_none.mp
          (mt (buildIcmpReply_isSome_iff ho hi' hd hw).mp fun hall => hlen (hall hecho))
      rw [hnone] at h
      cases h
  · rw [buildIcmpReply_eq hi', if_neg hecho] at h
    simp only [Option.bind_some, Option.pure_def, Option.some.injEq, Prod.mk.injEq] at h
    obtain ⟨rfl, rfl⟩ := h
    exact ⟨⟨hi', ho⟩, rfl, by simp, fun _ => hecho⟩

/-- A turn goes wrong only with an IP length out of bounds. -/
theorem serve_isSome_iff (hs : s.Full) (hd : pkt.2.length = 6) (hw : hwaddr.length = 6) :
    (serve hwaddr s pkt).isSome ↔
      (IsEcho (overlay s.iFrame pkt.1) (pkt.1.take etherMaxLen).length →
        28 ≤ ipLen (overlay s.iFrame pkt.1) ∧ ipLen (overlay s.iFrame pkt.1) ≤ 1504) := by
  have hi' := length_overlay (p := pkt.1) hs.1
  constructor
  · intro h hecho
    obtain ⟨⟨s', r⟩, hserve⟩ := Option.isSome_iff_exists.mp h
    obtain ⟨-, hover, hsome, hnone⟩ := serve_spec hs hd hw hserve
    rw [← hover] at hecho ⊢
    cases r with
    | none => exact absurd hecho (hnone rfl)
    | some f => exact ⟨(hsome f rfl).2.1, (hsome f rfl).2.2.1⟩
  · intro hbound
    have hle : 0 + (pkt.1.take etherMaxLen).length ≤ s.iFrame.length := by
      rw [hs.1, List.length_take]
      omega
    have hover : write s.iFrame 0 (pkt.1.take etherMaxLen) = some (overlay s.iFrame pkt.1) := by
      rw [write, if_pos hle]
      simp [overlay]
    unfold serve
    simp only [hover, Option.bind_eq_bind, Option.bind_some]
    by_cases hecho : IsEcho (overlay s.iFrame pkt.1) (pkt.1.take etherMaxLen).length
    · obtain ⟨hmin, hmax⟩ := hbound hecho
      obtain ⟨rest, hrun, hfull, -, -⟩ := reply_answers hs.2 hi' hd hw hecho hmin hmax
      have hread : 0 + (14 + ipLen (overlay s.iFrame pkt.1)) ≤
          (reply (overlay s.iFrame pkt.1) pkt.2 hwaddr ++ rest).length := by
        rw [hfull, etherMaxLen]
        omega
      simp only [hrun, Option.bind_some, read_of_le hread]
      rfl
    · rw [buildIcmpReply_eq hi', if_neg hecho]
      rfl

/-- A request keeps its headers in the buffer. -/
theorem byteAt_overlay (i : Bytes) {p : Bytes} (h : 42 ≤ p.length) {k : ℕ} (hk : k < 42) :
    byteAt (overlay i p) k = byteAt p k := by
  rw [byteAt, byteAt, getD_overlay _ _ (by rw [etherMaxLen]; omega), if_pos (by omega)]

theorem isEcho_overlay (i p : Bytes) :
    IsEcho (overlay i p) (p.take etherMaxLen).length ↔ IsEcho p p.length := by
  rw [IsEcho, IsEcho, List.length_take, etherMaxLen]
  by_cases h : 42 ≤ p.length
  · rw [byteAt_overlay i h (by decide), byteAt_overlay i h (by decide),
      byteAt_overlay i h (by decide)]
    simp [h]
  · simp [h]

theorem ipLen_overlay (i : Bytes) {p : Bytes} (h : 42 ≤ p.length) :
    ipLen (overlay i p) = ipLen p := by
  rw [ipLen, ipLen, byteAt_overlay i h (by decide), byteAt_overlay i h (by decide)]

/-- The program stays within its buffers exactly as long as the IP header of every echo request
has a length between the one of the headers and the one that the buffers have room for, whatever
was received. -/
theorem serveAll_isSome_iff (hs : s.Full) (hw : hwaddr.length = 6)
    (hmac : ∀ p ∈ ps, p.2.length = 6) :
    (serveAll hwaddr s ps).isSome ↔
      ∀ p ∈ ps, IsEcho p.1 p.1.length → 28 ≤ ipLen p.1 ∧ ipLen p.1 ≤ 1504 := by
  induction ps generalizing s with
  | nil => simp [serveAll]
  | cons p ps ih =>
    have hd := hmac p List.mem_cons_self
    have hstep := serve_isSome_iff hs hd hw
    rw [isEcho_overlay] at hstep
    have hhead : (serve hwaddr s p).isSome ↔
        (IsEcho p.1 p.1.length → 28 ≤ ipLen p.1 ∧ ipLen p.1 ≤ 1504) := by
      refine hstep.trans (imp_congr_right fun hecho => ?_)
      rw [ipLen_overlay _ hecho.1]
    rw [List.forall_mem_cons, ← hhead, serveAll]
    cases hserve : serve hwaddr s p with
    | none => simp
    | some t =>
      have ht := (serve_spec hs hd hw hserve).1
      rw [← ih ht fun q hq => hmac q (List.mem_cons_of_mem p hq)]
      cases hrest : serveAll hwaddr t.1 ps <;> simp [hrest]

/-- A second request of which the IP length exceeds the buffers. -/
theorem serveAll_isSome_iff_long :
    serveAll (List.replicate 6 1) ⟨List.replicate etherMaxLen 0, List.replicate etherMaxLen 0⟩
      [(request 28, List.replicate 6 2), (request 2000, List.replicate 6 2)] = none := by
  refine Option.not_isSome_iff_eq_none.mp fun h => ?_
  have hall := (serveAll_isSome_iff ⟨List.length_replicate, List.length_replicate⟩ rfl
    (by decide)).mp h
  exact absurd (hall (request 2000, List.replicate 6 2) (by simp) (by decide)).2 (by decide)

/-- The byte at some place of the last packet that was long enough, or what was there before. -/
def latest (i : Bytes) (ps : List Bytes) (k : ℕ) : BitVec 8 :=
  ((ps.reverse.find? (k < ·.length)).getD i).getD k 0

theorem latest_cons (i p : Bytes) (ps : List Bytes) {k : ℕ} (hk : k < etherMaxLen) :
    latest (overlay i p) ps k = latest i (p :: ps) k := by
  unfold latest
  rw [List.reverse_cons, List.find?_append]
  cases ps.reverse.find? (k < ·.length) with
  | some q => rfl
  | none =>
    rw [Option.getD_none, getD_overlay i p hk]
    by_cases h : k < p.length <;> simp [h]

theorem latest_concat (i p : Bytes) (ps : List Bytes) (k : ℕ) :
    latest i (ps ++ [p]) k = if k < p.length then p.getD k 0 else latest i ps k := by
  unfold latest
  rw [List.reverse_append, List.reverse_singleton, List.singleton_append, List.find?_cons]
  by_cases h : k < p.length <;> simp [h]

/-- What the buffers hold after any number of packets. -/
theorem serveAll_spec (hs : s.Full) (hw : hwaddr.length = 6) (hmac : ∀ p ∈ ps, p.2.length = 6)
    (h : serveAll hwaddr s ps = some (s', rs)) :
    s'.Full ∧ ∀ k < etherMaxLen, s'.iFrame.getD k 0 = latest s.iFrame (ps.map Prod.fst) k := by
  induction ps generalizing s rs with
  | nil =>
    cases h
    exact ⟨hs, fun k _ => rfl⟩
  | cons p ps ih =>
    simp only [serveAll, Option.bind_eq_bind, Option.bind_eq_some_iff] at h
    obtain ⟨⟨s₁, r⟩, hserve, ⟨s₂, rs₂⟩, hrest, heq⟩ := h
    cases heq
    obtain ⟨hs₁, hi₁, -⟩ := serve_spec hs (hmac p List.mem_cons_self) hw hserve
    obtain ⟨hs', hrun⟩ := ih hs₁ (fun q hq => hmac q (List.mem_cons_of_mem p hq)) hrest
    refine ⟨hs', fun k hk => ?_⟩
    rw [hrun k hk, hi₁, latest_cons _ _ _ hk, List.map_cons]

theorem serveAll_concat (s : Frames) (ps : List (Bytes × Bytes)) :
    serveAll hwaddr s (ps ++ [pkt]) = (serveAll hwaddr s ps).bind fun t =>
      (serve hwaddr t.1 pkt).map fun u => (u.1, t.2 ++ [u.2]) := by
  induction ps generalizing s with
  | nil =>
    cases h : serve hwaddr s pkt with
    | none => simp [serveAll, h]
    | some u => simp [serveAll, h]
  | cons p ps ih =>
    rw [List.cons_append, serveAll, serveAll]
    cases serve hwaddr s p with
    | none => rfl
    | some t =>
      simp only [Option.bind_eq_bind, Option.bind_some, ih]
      cases serveAll hwaddr t.1 ps with
      | none => rfl
      | some u =>
        cases hlast : serve hwaddr u.1 pkt <;> simp [hlast]

/-- The last turn of a run. -/
theorem serveAll_last (h : serveAll hwaddr s (ps ++ [pkt]) = some (s', rs ++ [r])) :
    ∃ t, serveAll hwaddr s ps = some (t, rs) ∧ serve hwaddr t pkt = some (s', r) := by
  rw [serveAll_concat, Option.bind_eq_some_iff] at h
  obtain ⟨t, hrun, hlast⟩ := h
  obtain ⟨u, hserve, heq⟩ := Option.map_eq_some_iff.mp hlast
  obtain ⟨hs', hall⟩ := Prod.mk.inj heq
  obtain ⟨hrs, hr⟩ := List.append_inj' hall rfl
  cases hs'
  cases hr
  exact ⟨t.1, by rw [hrun, ← hrs], hserve⟩

/-- The message sent back is what the last packets long enough have at its place: bytes of
earlier packets, where the IP length exceeds the packet. -/
theorem reply_latest {f : Bytes} (hs : s.Full) (hw : hwaddr.length = 6)
    (hmac : ∀ p ∈ ps ++ [pkt], p.2.length = 6)
    (h : serveAll hwaddr s (ps ++ [pkt]) = some (s', rs ++ [some f])) :
    f.length = 14 + ipLen pkt.1 ∧ ∀ k, 38 ≤ k → k < f.length →
      f.getD k 0 = latest s.iFrame ((ps ++ [pkt]).map Prod.fst) k := by
  obtain ⟨t, hrun, hserve⟩ := serveAll_last h
  obtain ⟨ht, hbytes⟩ := serveAll_spec hs hw (fun p hp => hmac p (List.mem_append_left _ hp)) hrun
  obtain ⟨hs', hover, hsome, -⟩ := serve_spec ht (hmac pkt (by simp)) hw hserve
  obtain ⟨hecho, hmin, hmax, rfl⟩ := hsome f rfl
  have hans := answers_reply hs'.1 (hmac pkt (by simp)) hw hmin hmax
  have hlong : 42 ≤ pkt.1.length := by
    have := hecho.1
    rw [List.length_take] at this
    omega
  have hlen : ipLen s'.iFrame = ipLen pkt.1 := by
    rw [hover, ipLen_overlay _ hlong]
  refine ⟨by rw [hans.length, hlen], fun k hk hlt => ?_⟩
  rw [hans.length] at hlt
  have hk' : k < etherMaxLen := by rw [etherMaxLen]; omega
  have hcopy : (reply s'.iFrame pkt.2 hwaddr).getD k 0 = s'.iFrame.getD k 0 := by
    have hpart : ∀ l : Bytes, l.getD k 0 = (part l 38 (ipLen s'.iFrame - 24)).getD (k - 38) 0 := by
      intro l
      simp only [part, List.getD_eq_getElem?_getD, List.getElem?_take, List.getElem?_drop]
      rw [if_pos (by omega), show 38 + (k - 38) = k by omega]
    rw [hpart, hans.data, ← hpart]
  rw [hcopy, hover, getD_overlay _ _ hk', List.map_append, List.map_singleton, latest_concat,
    hbytes k hk']

theorem reply_congr {i i' d w : Bytes} (h : i.take (14 + ipLen i) = i'.take (14 + ipLen i))
    (hmin : 28 ≤ ipLen i) : reply i d w = reply i' d w := by
  have hpart : ∀ off n, off + n ≤ 14 + ipLen i → part i off n = part i' off n := by
    intro off n hle
    have hcut : ∀ l : Bytes, part l off n = part (l.take (14 + ipLen i)) off n := fun l => by
      rw [part, part, List.drop_take, List.take_take, Nat.min_eq_left (by omega)]
    rw [hcut, h, ← hcut]
  have hlen : ipLen i = ipLen i' := by
    have h16 := hpart 16 2 (by omega)
    rw [ipLen, ipLen, ← byteAt_part i (show 0 < 2 by decide), ← byteAt_part i' (show 0 < 2 by decide),
      h16, show 17 = 16 + 1 from rfl, ← byteAt_part i (show 1 < 2 by decide),
      ← byteAt_part i' (show 1 < 2 by decide), h16]
  have hmsg : ∀ sum, replyMessage i sum = replyMessage i' sum := fun sum => by
    rw [replyMessage, replyMessage, ← hlen, hpart 38 _ (by omega)]
  rw [reply, reply, replyHead, replyHead, hmsg, hmsg, ← hlen, hpart 18 2 (by omega),
    hpart 30 4 (by omega), hpart 26 4 (by omega)]

/-- A packet of bytes which all are the same. -/
def filler (b : BitVec 8) : Bytes × Bytes := (List.replicate etherMaxLen b, List.replicate ethAlen 0)

theorem serve_filler {b : BitVec 8} (hs : s.Full) (hw : hwaddr.length = 6) (hb : b ≠ 0x45) :
    ∃ t, serve hwaddr s (filler b) = some (t, none) := by
  have hbyte : ∀ i : Bytes, byteAt (overlay i (filler b).1) 14 = b.toNat := fun i => by
    rw [byteAt, getD_overlay _ _ (by decide), filler, List.length_replicate, if_pos (by decide),
      List.getD_eq_getElem?_getD, List.getElem?_replicate, if_pos (by decide), Option.getD_some]
  have hnot : ∀ i len, ¬ IsEcho (overlay i (filler b).1) len := fun i len h => by
    have h45 := h.2.1
    rw [hbyte] at h45
    exact hb (BitVec.eq_of_toNat_eq h45)
  have hrun := (serve_isSome_iff hs (show (filler b).2.length = 6 from rfl) hw).mpr fun h =>
    absurd h (hnot _ _)
  obtain ⟨⟨t, r⟩, hserve⟩ := Option.isSome_iff_exists.mp hrun
  obtain ⟨-, hover, hsome, -⟩ := serve_spec hs rfl hw hserve
  cases r with
  | none => exact ⟨t, hserve⟩
  | some f => exact absurd (hover ▸ (hsome f rfl).1) (hnot _ _)

theorem filler_mac (b : BitVec 8) : ∀ p ∈ [filler b], p.2.length = 6 := by
  intro p hp
  rw [List.mem_singleton.mp hp]
  rfl

theorem latest_filler (i : Bytes) (b : BitVec 8) {k : ℕ} (hk : k < etherMaxLen) :
    latest i ([filler b].map Prod.fst) k = b := by
  rw [List.map_singleton, ← List.nil_append [(filler b).1], latest_concat, filler,
    List.length_replicate, if_pos hk, List.getD_eq_getElem?_getD, List.getElem?_replicate,
    if_pos hk, Option.getD_some]

/-- A request is answered after a packet that is not. -/
theorem serveAll_filler (hs : s.Full) (hw : hwaddr.length = 6) (hd : pkt.2.length = 6)
    (hecho : IsEcho pkt.1 pkt.1.length) (hpkt : pkt.1.length ≤ etherMaxLen)
    (hmin : 28 ≤ ipLen pkt.1) (hmax : ipLen pkt.1 ≤ 1504) {b : BitVec 8} (hb : b ≠ 0x45) :
    ∃ t f, serveAll hwaddr s ([filler b] ++ [pkt]) = some (t, [none] ++ [some f]) := by
  have htake : pkt.1.take etherMaxLen = pkt.1 := List.take_of_length_le hpkt
  obtain ⟨u, hu⟩ := serve_filler hs hw hb
  have hfull := (serve_spec hs rfl hw hu).1
  have hserve := (serve_isSome_iff hfull hd hw).mpr fun _ => by
    rw [ipLen_overlay _ hecho.1]
    exact ⟨hmin, hmax⟩
  obtain ⟨⟨t, r⟩, hserve⟩ := Option.isSome_iff_exists.mp hserve
  obtain ⟨-, hi, -, hnone⟩ := serve_spec hfull hd hw hserve
  cases r with
  | none =>
    have hech : IsEcho (overlay u.iFrame pkt.1) (pkt.1.take etherMaxLen).length :=
      (isEcho_overlay u.iFrame pkt.1).mpr (htake.symm ▸ hecho)
    exact absurd (hi ▸ hech) (hnone rfl)
  | some f => exact ⟨t, f, by simp [serveAll, hu, hserve]⟩

/-- The answer to a request is a matter of that request alone exactly if the length in its IP
header does not exceed what was received. What exceeds it are bytes of the last packets before that
were long enough, or of the buffer. -/
theorem answer_unique_iff (hs : s.Full) (hw : hwaddr.length = 6) (hd : pkt.2.length = 6)
    (hpkt : pkt.1.length ≤ etherMaxLen) (hecho : IsEcho pkt.1 pkt.1.length)
    (hmin : 28 ≤ ipLen pkt.1) (hmax : ipLen pkt.1 ≤ 1504) :
    ((∀ ps ps' t t' rs rs' r r', (∀ p ∈ ps ++ ps', p.2.length = 6) →
      serveAll hwaddr s (ps ++ [pkt]) = some (t, rs ++ [r]) →
      serveAll hwaddr s (ps' ++ [pkt]) = some (t', rs' ++ [r']) → r = r') ↔
      14 + ipLen pkt.1 ≤ pkt.1.length) ∧
    ∀ ps t rs f, (∀ p ∈ ps, p.2.length = 6) →
      serveAll hwaddr s (ps ++ [pkt]) = some (t, rs ++ [some f]) →
      f.length = 14 + ipLen pkt.1 ∧ ∀ k, pkt.1.length ≤ k → k < f.length →
        f.getD k 0 = latest s.iFrame (ps.map Prod.fst) k := by
  have hlong : 42 ≤ pkt.1.length := hecho.1
  have hm : etherMaxLen = 1518 := rfl
  have htake : pkt.1.take etherMaxLen = pkt.1 := List.take_of_length_le hpkt
  have hover : ∀ i : Bytes, (overlay i pkt.1).take pkt.1.length = pkt.1 := fun i => by
    rw [overlay, htake, List.take_left]
  have hlen : ∀ i : Bytes, ipLen (overlay i pkt.1) = ipLen pkt.1 := fun i =>
    ipLen_overlay i hlong
  have hech : ∀ i : Bytes, IsEcho (overlay i pkt.1) (pkt.1.take etherMaxLen).length := fun i =>
    (isEcho_overlay i pkt.1).mpr hecho
  have hbeyond : ∀ ps t rs f, (∀ p ∈ ps, p.2.length = 6) →
      serveAll hwaddr s (ps ++ [pkt]) = some (t, rs ++ [some f]) →
      f.length = 14 + ipLen pkt.1 ∧ ∀ k, pkt.1.length ≤ k → k < f.length →
        f.getD k 0 = latest s.iFrame (ps.map Prod.fst) k := by
    intro ps t rs f hmac hrun
    have hall : ∀ p ∈ ps ++ [pkt], p.2.length = 6 := by
      intro p hp
      rcases List.mem_append.mp hp with hp | hp
      · exact hmac p hp
      · rwa [List.mem_singleton.mp hp]
    obtain ⟨hflen, hbytes⟩ := reply_latest hs hw hall hrun
    refine ⟨hflen, fun k hk hlt => ?_⟩
    rw [hbytes k (by omega) hlt, List.map_append, List.map_singleton, latest_concat,
      if_neg (not_lt.mpr hk)]
  refine ⟨⟨?_, ?_⟩, hbeyond⟩
  · intro hall
    by_contra hshort
    -- two runs which differ in the packet before the request
    have hone : ∀ b : BitVec 8, b ≠ 0x45 → ∃ t f,
        serveAll hwaddr s ([filler b] ++ [pkt]) = some (t, [none] ++ [some f]) ∧
          f.getD pkt.1.length 0 = b := by
      intro b hb
      obtain ⟨t, f, hrun⟩ := serveAll_filler hs hw hd hecho hpkt hmin hmax hb
      obtain ⟨hflen, hbytes⟩ := hbeyond [filler b] t [none] f (filler_mac b) hrun
      refine ⟨t, f, hrun, ?_⟩
      rw [hbytes _ le_rfl (by omega), latest_filler _ _ (by omega)]
    obtain ⟨t, f, hrun, hf⟩ := hone 0 (by decide)
    obtain ⟨t', f', hrun', hf'⟩ := hone 1 (by decide)
    have hmac : ∀ p ∈ [filler 0] ++ [filler 1], p.2.length = 6 := by
      intro p hp
      rcases List.mem_pair.mp hp with rfl | rfl <;> rfl
    have heq := hall [filler 0] [filler 1] t t' [none] [none] (some f) (some f') hmac hrun hrun'
    cases heq
    rw [hf] at hf'
    exact absurd hf' (by decide)
  · intro hfit ps ps' t t' rs rs' r r' hmac hrun hrun'
    obtain ⟨u, hbefore, hserve⟩ := serveAll_last hrun
    obtain ⟨u', hbefore', hserve'⟩ := serveAll_last hrun'
    have hu := (serveAll_spec hs hw (fun p hp => hmac p (by simp [hp])) hbefore).1
    have hu' := (serveAll_spec hs hw (fun p hp => hmac p (by simp [hp])) hbefore').1
    obtain ⟨-, hi, hsome, hnone⟩ := serve_spec hu hd hw hserve
    obtain ⟨-, hi', hsome', hnone'⟩ := serve_spec hu' hd hw hserve'
    cases r with
    | none => exact absurd (hi ▸ hech u.iFrame) (hnone rfl)
    | some f =>
      cases r' with
      | none => exact absurd (hi' ▸ hech u'.iFrame) (hnone' rfl)
      | some f' =>
        obtain ⟨-, -, -, rfl⟩ := hsome f rfl
        obtain ⟨-, -, -, rfl⟩ := hsome' f' rfl
        congr 1
        rw [hi, hi']
        refine reply_congr ?_ (by rw [hlen]; exact hmin)
        have hcut : ∀ i : Bytes, (overlay i pkt.1).take (14 + ipLen pkt.1) =
            pkt.1.take (14 + ipLen pkt.1) := fun i => by
          rw [← Nat.min_eq_left hfit, ← List.take_take, hover, Nat.min_eq_left hfit]
        rw [hlen, hcut, hcut]

/-- A request of 42 bytes which claims to be longer: a packet of sevens before it comes back. -/
theorem answer_unique_iff_short : ∃ t f,
    serveAll (List.replicate 6 1) ⟨List.replicate etherMaxLen 0, List.replicate etherMaxLen 0⟩
      ([filler 7] ++ [(request 100, List.replicate 6 2)]) = some (t, [none] ++ [some f]) ∧
    f.length = 114 ∧ f.getD 50 0 = 7 ∧
    ¬ ∀ ps ps' t t' rs rs' r r', (∀ p ∈ ps ++ ps', p.2.length = 6) →
      serveAll (List.replicate 6 1) ⟨List.replicate etherMaxLen 0, List.replicate etherMaxLen 0⟩
        (ps ++ [(request 100, List.replicate 6 2)]) = some (t, rs ++ [r]) →
      serveAll (List.replicate 6 1) ⟨List.replicate etherMaxLen 0, List.replicate etherMaxLen 0⟩
        (ps' ++ [(request 100, List.replicate 6 2)]) = some (t', rs' ++ [r']) → r = r' := by
  have hs : Frames.Full ⟨List.replicate etherMaxLen 0, List.replicate etherMaxLen 0⟩ :=
    ⟨List.length_replicate, List.length_replicate⟩
  have hw : (List.replicate 6 (1 : BitVec 8)).length = 6 := rfl
  have hecho : IsEcho (request 100) (request 100).length := by decide
  have hpkt : (request 100).length ≤ etherMaxLen := by decide
  have hd : ((request 100, List.replicate 6 2) : Bytes × Bytes).2.length = 6 := rfl
  obtain ⟨t, f, hrun⟩ := serveAll_filler hs hw hd hecho hpkt (by decide) (by decide)
    (show (7 : BitVec 8) ≠ 0x45 by decide)
  obtain ⟨hiff, hbeyond⟩ := answer_unique_iff hs hw hd hpkt hecho (by decide) (by decide)
  obtain ⟨hlen, hbytes⟩ := hbeyond [filler 7] t [none] f (filler_mac 7) hrun
  have hlen : f.length = 114 := hlen
  refine ⟨t, f, hrun, hlen, ?_, fun h => absurd (hiff.mp h) (by decide)⟩
  rw [hbytes 50 (by decide) (by omega), latest_filler _ _ (by decide)]

end Run

end Libevl.IcmpEcho
