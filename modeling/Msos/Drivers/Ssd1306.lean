import Mathlib.Data.List.Count

namespace Msos.Drivers.Ssd1306

def setColumnAddress : UInt8 := 0x21

def setPageAddress : UInt8 := 0x22

def setDisplayStartLine : UInt8 := 0x40

-- The calls of hal::interfaces::I2C
inductive Event
  | start (address : UInt8)
  | write (byte : UInt8)
  | stop
deriving DecidableEq, Repr

section Driver

variable (address : UInt8)

def sendCommand (command : UInt8) : List Event :=
  [.start address, .write 0x00, .write command, .stop]

def setHome : List Event :=
  sendCommand address setColumnAddress ++ sendCommand address 0x00 ++ sendCommand address 0x7f ++
    sendCommand address setPageAddress ++ sendCommand address 0x00 ++ sendCommand address 0x07

variable (buffer : List UInt8)

-- The bytes of the inner loop
def packetBytes (packet : Nat) : List UInt8 :=
  (List.range 16).map fun packetByte => buffer.getD (packet * 16 + packetByte) 0

def sendPacket (data : List UInt8) : List Event :=
  [.start address, .write setDisplayStartLine] ++ data.map .write ++ [.stop]

-- The outer loop, whose counter is a byte; none when the fuel does not do.
def sendPackets : Nat → UInt8 → Option (List Event)
  | 0, _ => none
  | fuel + 1, packet =>
      if packet.toNat < buffer.length / 16 then
        (sendPackets fuel (packet + 1)).map fun events =>
          sendPacket address (packetBytes buffer packet.toNat) ++ events
      else some []

def display (fuel : Nat) : Option (List Event) :=
  (sendPackets address buffer fuel 0).map fun events => setHome address ++ events

-- The home commands and then the bytes of the buffer in packets.
def Transfers (events : List Event) : Prop :=
  ∃ packets : List (List UInt8),
    events = setHome address ++ packets.flatMap (sendPacket address) ∧
      packets.flatten = buffer ∧ ∀ data ∈ packets, data.length ≤ 16

def DisplaysAll : Prop := ∃ fuel events, display address buffer fuel = some events ∧
  Transfers address buffer events

end Driver

section Loop

variable {address : UInt8} {buffer : List UInt8}

-- A counter that never reaches the quotient wraps round for ever.
theorem sendPackets_eq_none (h : 256 ≤ buffer.length / 16) (fuel : Nat) (packet : UInt8) :
    sendPackets address buffer fuel packet = none := by
  induction fuel generalizing packet with
  | zero => rfl
  | succ fuel ih =>
      have hpacket : packet.toNat < buffer.length / 16 := Nat.lt_of_lt_of_le packet.toNat_lt h
      simp only [sendPackets, hpacket, if_true, ih, Option.map_none]

-- Below the limit the loop sends the packets that are left.
theorem sendPackets_eq_some (hlimit : buffer.length / 16 < 256) (left packet : Nat)
    (hleft : packet + left = buffer.length / 16) :
    sendPackets address buffer (left + 1) (UInt8.ofNat packet) =
      some (((List.range' packet left).map (packetBytes buffer)).flatMap (sendPacket address)) := by
  have hcounter : (UInt8.ofNat packet).toNat = packet := by
    rw [UInt8.toNat_ofNat']
    exact Nat.mod_eq_of_lt (by omega)
  induction left generalizing packet with
  | zero =>
      have hend : ¬packet < buffer.length / 16 := by omega
      simp only [sendPackets, hcounter, hend, if_false]
      rfl
  | succ left ih =>
      have hmore : packet < buffer.length / 16 := by omega
      have hnext : UInt8.ofNat packet + 1 = UInt8.ofNat (packet + 1) :=
        (UInt8.ofNat_add packet 1).symm
      have hrest := ih (packet + 1) (by omega) (by
        rw [UInt8.toNat_ofNat']
        exact Nat.mod_eq_of_lt (by omega))
      rw [sendPackets, hcounter, if_pos hmore, hnext, hrest, List.range'_succ]
      rfl

theorem packetBytes_eq {packet : Nat} (h : 16 * (packet + 1) ≤ buffer.length) :
    packetBytes buffer packet = (buffer.drop (16 * packet)).take 16 := by
  apply List.ext_getElem
  · rw [packetBytes, List.length_map, List.length_range, List.length_take, List.length_drop]
    omega
  · intro i hi _
    rw [packetBytes, List.length_map, List.length_range] at hi
    have hbyte : 16 * packet + i < buffer.length := by omega
    simp only [packetBytes, List.getElem_map, List.getElem_range, List.getElem_take,
      List.getElem_drop, Nat.mul_comm packet, List.getD_eq_getElem?_getD,
      List.getElem?_eq_getElem hbyte, Option.getD_some]

theorem flatten_packets (count : Nat) (h : 16 * count ≤ buffer.length) :
    ((List.range count).map (packetBytes buffer)).flatten = buffer.take (16 * count) := by
  induction count with
  | zero => rfl
  | succ count ih =>
      rw [List.range_succ, List.map_append, List.flatten_append, ih (by omega), Nat.mul_succ,
        List.take_add, List.map_singleton, List.flatten_singleton, packetBytes_eq h]

end Loop

section Count

variable {address : UInt8} {buffer : List UInt8}

def isWrite : Event → Bool
  | .write _ => true
  | _ => false

def isStart : Event → Bool
  | .start _ => true
  | _ => false

theorem countP_isWrite_sendPacket (data : List UInt8) :
    (sendPacket address data).countP isWrite = data.length + 1 := by
  have hdata : (data.map Event.write).countP isWrite = data.length := by
    rw [List.countP_map, List.countP_eq_length]
    exact fun _ _ => rfl
  have hcontrol : [Event.start address, .write setDisplayStartLine].countP isWrite = 1 := rfl
  rw [sendPacket, List.countP_append, List.countP_append, hdata, hcontrol, Nat.add_comm 1]
  rfl

theorem countP_isStart_sendPacket (data : List UInt8) :
    (sendPacket address data).countP isStart = 1 := by
  have hdata : (data.map Event.write).countP isStart = 0 := by
    rw [List.countP_map, List.countP_eq_zero]
    exact fun _ _ h => Bool.false_ne_true h
  rw [sendPacket, List.countP_append, List.countP_append, hdata]
  rfl

-- Every packet writes one byte more than its data.
theorem countP_isWrite (packets : List (List UInt8)) :
    (packets.flatMap (sendPacket address)).countP isWrite =
      (packets.flatMap (sendPacket address)).countP isStart + packets.flatten.length := by
  induction packets with
  | nil => rfl
  | cons data packets ih =>
      rw [List.flatMap_cons, List.countP_append, List.countP_append, List.flatten_cons,
        List.length_append, ih, countP_isWrite_sendPacket, countP_isStart_sendPacket]
      omega

-- So the events tell how many bytes of data were sent.
theorem length_flatten_eq {packets others : List (List UInt8)}
    (h : packets.flatMap (sendPacket address) = others.flatMap (sendPacket address)) :
    packets.flatten.length = others.flatten.length := by
  have hp := @countP_isWrite address packets
  have ho := @countP_isWrite address others
  rw [h] at hp
  omega

theorem display_eq (hlimit : buffer.length / 16 < 256) :
    display address buffer (buffer.length / 16 + 1) =
      some (setHome address ++ ((List.range (buffer.length / 16)).map
        (packetBytes buffer)).flatMap (sendPacket address)) := by
  have hpackets := @sendPackets_eq_some address _ hlimit _ 0 (Nat.zero_add _)
  rw [display, show (0 : UInt8) = UInt8.ofNat 0 from rfl, hpackets, List.range_eq_range']
  rfl

-- More fuel changes nothing.
theorem sendPackets_mono {fuel more : Nat} {packet : UInt8} {events : List Event}
    (h : sendPackets address buffer fuel packet = some events) (hle : fuel ≤ more) :
    sendPackets address buffer more packet = some events := by
  induction fuel generalizing more packet events with
  | zero => cases h
  | succ fuel ih =>
      cases more with
      | zero => omega
      | succ more =>
          by_cases hpacket : packet.toNat < buffer.length / 16
          · simp only [sendPackets, hpacket, if_true, Option.map_eq_some_iff] at h ⊢
            obtain ⟨rest, hrest, hevents⟩ := h
            exact ⟨rest, ih hrest (Nat.le_of_succ_le_succ hle), hevents⟩
          · simp only [sendPackets, hpacket, if_false] at h ⊢
            exact h

theorem display_functional {fuel other : Nat} {events others : List Event}
    (hf : display address buffer fuel = some events)
    (ho : display address buffer other = some others) : events = others := by
  obtain ⟨sent, hsent, rfl⟩ := Option.map_eq_some_iff.mp hf
  obtain ⟨sent', hsent', rfl⟩ := Option.map_eq_some_iff.mp ho
  rcases Nat.le_total fuel other with hle | hle
  · rw [Option.some.inj ((sendPackets_mono hsent hle).symm.trans hsent')]
  · rw [Option.some.inj ((sendPackets_mono hsent' hle).symm.trans hsent)]

theorem displaysAll_iff (address : UInt8) (buffer : List UInt8) :
    DisplaysAll address buffer ↔ buffer.length % 16 = 0 ∧ buffer.length < 4096 := by
  constructor
  · rintro ⟨fuel, events, hdisplay, packets, rfl, hflatten, -⟩
    have hlimit : buffer.length / 16 < 256 := by
      by_contra h
      rw [display, sendPackets_eq_none (by omega)] at hdisplay
      cases hdisplay
    have hevents := display_functional hdisplay (display_eq hlimit)
    have hlength := length_flatten_eq (List.append_cancel_left hevents)
    rw [hflatten, flatten_packets _ (by omega), List.length_take] at hlength
    omega
  · rintro ⟨hwhole, hlimit⟩
    refine ⟨_, _, display_eq (by omega), _, rfl, ?_, ?_⟩
    · rw [flatten_packets _ (by omega)]
      exact List.take_of_length_le (by omega)
    · intro data hdata
      obtain ⟨packet, -, rfl⟩ := List.mem_map.mp hdata
      exact Nat.le_of_eq (by rw [packetBytes, List.length_map, List.length_range])

-- The byte behind the first packet is not sent.
theorem seventeen_not_displaysAll : ¬DisplaysAll 0x3c (List.replicate 17 0xff) := by
  rintro ⟨fuel, events, hdisplay, packets, rfl, hflatten, -⟩
  have hevents := display_functional hdisplay (display_eq (by decide))
  have hlength := length_flatten_eq (List.append_cancel_left hevents)
  rw [hflatten] at hlength
  exact absurd hlength (by decide)

end Count

end Msos.Drivers.Ssd1306
