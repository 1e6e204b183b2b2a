import Mdns.Dname.Expand

/-!
# Storing bytes

What lies where after bytes have been stored: right behind others, before others, or over them.
-/
namespace Mdns
open Lib List

variable {p front body back bs : Mem} {n off : Nat} {i v : Nat}

theorem writeAt_append_left (h : n + bs.length ≤ front.length) :
    writeAt (front ++ back) n bs = writeAt front n bs ++ back := by
  have h1 : n ≤ front.length := by omega
  rw [writeAt, writeAt, take_append_of_le_length h1, drop_append_of_le_length h]
  simp only [append_assoc]

theorem writeAt_length (front back bs : Mem) :
    writeAt (front ++ back) front.length bs = front ++ bs ++ back.drop bs.length := by
  rw [writeAt, take_left, ← drop_drop, drop_left]

theorem writeAt_writeAt_over (p a b c d : Mem) (hp : n ≤ p.length)
    (hlen : b.length = c.length ∨ d = [] ∧ b.length ≤ c.length) :
    writeAt (writeAt p n (a ++ (b ++ d))) (n + a.length) c = writeAt p n (a ++ (c ++ d)) := by
  have htake : (p.take n).length = n := by
    rw [length_take, Nat.min_eq_left hp]
  have hfront : (p.take n ++ a).length = n + a.length := by rw [length_append, htake]
  have hsplit : writeAt p n (a ++ (b ++ d)) = (p.take n ++ a) ++ (b ++ d ++ p.drop (n + (a ++ (b ++ d)).length)) := by
    simp only [writeAt, append_assoc]
  rw [hsplit, ← hfront, writeAt_length]
  rcases hlen with heq | ⟨rfl, hle⟩
  · rw [← heq, append_assoc b, drop_left]
    simp only [writeAt, append_assoc, length_append, heq]
  · rw [append_nil, append_nil, drop_append, drop_of_length_le hle, nil_append, drop_drop]
    simp only [writeAt, append_assoc, length_append]
    have hsum : n + (a.length + b.length) + (c.length - b.length) = n + (a.length + c.length) := by omega
    rw [hsum]

theorem length_writeAt (h : n + bs.length ≤ p.length) : (writeAt p n bs).length = p.length := by
  simp only [writeAt, length_append, length_take, length_drop]
  omega

theorem At.length_le (h : At p off body) : off + body.length ≤ p.length := by
  obtain ⟨front, back, rfl, rfl⟩ := h
  simp only [length_append]
  omega

theorem at_nil (h : off ≤ p.length) : At p off [] := by
  refine ⟨p.take off, p.drop off, ?_, ?_⟩
  · rw [append_nil, take_append_drop]
  · rw [length_take]
    omega

theorem At.put (h : At p off body) (bs : Mem) : At (writeAt p (off + body.length) bs) off (body ++ bs) := by
  obtain ⟨front, back, rfl, rfl⟩ := h
  refine ⟨front, back.drop bs.length, ?_, rfl⟩
  have hlen : front.length + body.length = (front ++ body).length := length_append.symm
  rw [writeAt, hlen, take_left, ← drop_drop, drop_left]
  simp only [append_assoc]

theorem At.writeAt_before (h : At p off body) (hn : n + bs.length ≤ off) : At (writeAt p n bs) off body := by
  obtain ⟨front, back, rfl, rfl⟩ := h
  refine ⟨writeAt front n bs, back, ?_, length_writeAt hn⟩
  rw [append_assoc, writeAt_append_left hn, append_assoc]

theorem At.writeAt_after (h : At p off body) (hn : off + body.length ≤ n) : At (writeAt p n bs) off body := by
  obtain ⟨front, back, rfl, rfl⟩ := h
  have hlen : (front ++ body).length ≤ n := by rw [length_append]; exact hn
  refine ⟨front, back.take (n - (front ++ body).length) ++ bs ++ (front ++ body ++ back).drop (n + bs.length), ?_, rfl⟩
  rw [writeAt, take_append, take_of_length_le hlen]
  simp only [append_assoc]

theorem At.writeAt_front (h : At p (n + bs.length) body) : At (writeAt p n bs) n (bs ++ body) := by
  obtain ⟨front, back, rfl, hfront⟩ := h
  have hle : n ≤ front.length := by omega
  refine ⟨front.take n, back, ?_, by rw [length_take, Nat.min_eq_left hle]⟩
  rw [writeAt, ← hfront, append_assoc front, take_append_of_le_length hle, drop_left]
  simp only [append_assoc]

theorem at_writeAt_self (h : n ≤ p.length) (bs : Mem) : At (writeAt p n bs) n bs := by
  simpa using (at_nil h).put bs

theorem byte_writeAt_before (hi : i < n) (h : n ≤ p.length) : byte (writeAt p n bs) i = byte p i := by
  have hlen : i < (p.take n).length := by
    rw [length_take]
    omega
  simp only [byte, writeAt, append_assoc, getD_eq_getElem?_getD, getElem?_append_left hlen,
    getElem?_take, if_pos hi]

theorem byte_writeAt_after (hi : n + bs.length ≤ i) (h : n ≤ p.length) : byte (writeAt p n bs) i = byte p i := by
  have hlen : (p.take n).length = n := by
    rw [length_take]
    omega
  have h1 : (p.take n ++ bs).length = n + bs.length := by rw [length_append, hlen]
  simp only [byte, writeAt, getD_eq_getElem?_getD]
  rw [getElem?_append_right (by omega), h1, getElem?_drop]
  congr 3
  omega

theorem toNat_ofNat_lt (h : v < 256) : (UInt8.ofNat v).toNat = v := by
  rw [UInt8.toNat_ofNat', Nat.mod_eq_of_lt h]

theorem getUint16_at (h : At p n (setUint16 v)) (hv : v < 65536) : getUint16 p n = v := by
  have h0 : byte p n = (UInt8.ofNat (v / 256)).toNat := h.byte
  have h1 : byte p (n + 1) = (UInt8.ofNat v).toNat := (@At.drop p n [UInt8.ofNat (v / 256)] _ h).byte
  rw [getUint16, h0, h1, toNat_ofNat_lt (by omega), UInt8.toNat_ofNat']
  omega

theorem getUint32_at (h : At p n (setUint32 v)) (hv : v < 4294967296) : getUint32 p n = v := by
  have h0 : byte p n = (UInt8.ofNat (v / 16777216)).toNat := h.byte
  have h' := @At.drop p n [UInt8.ofNat (v / 16777216)] _ h
  have h1 : byte p (n + 1) = (UInt8.ofNat (v / 65536)).toNat := h'.byte
  have h'' := @At.drop p _ [UInt8.ofNat (v / 65536)] _ h'
  have h2 : byte p (n + 2) = (UInt8.ofNat (v / 256)).toNat := h''.byte
  have h3 : byte p (n + 3) = (UInt8.ofNat v).toNat := (@At.drop p _ [UInt8.ofNat (v / 256)] _ h'').byte
  rw [getUint32, h0, h1, h2, h3, toNat_ofNat_lt (by omega)]
  simp only [UInt8.toNat_ofNat']
  omega


end Mdns
