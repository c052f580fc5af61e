import OscHost.Wire.Writer

/-!
Packets on a byte stream, each after its length in four big-endian bytes. The decoder takes chunks
of any size; a length above its limit discards everything, since the stream cannot be brought back
into step after it.
-/

namespace OscHost

def Writer.putFrame (packet : List UInt8) : Write Unit := fun w =>
  let needed := 4 + packet.length
  if w.remaining < needed then .error (.bufferOverflow needed w.remaining) w
  else if UInt32.size ≤ packet.length then .error (.frameTooLarge packet.length (UInt32.size - 1)) w
  else put (bigEndian 4 packet.length ++ packet) w

/-- The bytes that came in. Those in front of `start` were given out; they are dropped only when more
bytes come in. -/
structure FrameDecoder where
  limit : Nat
  bytes : List UInt8 := []
  start : Nat := 0
  deriving DecidableEq, Repr, Inhabited

namespace FrameDecoder

/-- The bytes that came in and were not given out as frames yet. -/
def buffered (decoder : FrameDecoder) : List UInt8 := decoder.bytes.drop decoder.start

def push (decoder : FrameDecoder) (chunk : List UInt8) : FrameDecoder :=
  { decoder with bytes := decoder.buffered ++ chunk, start := 0 }

def clear (decoder : FrameDecoder) : FrameDecoder := { decoder with bytes := [], start := 0 }

/-- The next whole frame, if it has arrived. -/
def next (decoder : FrameDecoder) : Except WireError (Option (List UInt8)) × FrameDecoder :=
  let pending := decoder.buffered
  if pending.length < 4 then (.ok none, decoder)
  else
    let length := ofBigEndian (pending.take 4)
    if decoder.limit < length then (.error (.frameTooLarge length decoder.limit), decoder.clear)
    else if pending.length < 4 + length then (.ok none, decoder)
    else
      let first := decoder.start + 4
      (.ok (some ((decoder.bytes.drop first).take length)), { decoder with start := first + length })

theorem next_shorter {decoder rest : FrameDecoder} {frame : List UInt8}
    (h : decoder.next = (.ok (some frame), rest)) : rest.buffered.length < decoder.buffered.length := by
  unfold next at h
  dsimp only at h
  split at h
  · cases h
  · rename_i enough
    split at h
    · cases h
    · split at h
      · cases h
      · cases h
        simp only [buffered, List.length_drop] at enough ⊢
        omega

end FrameDecoder

end OscHost
