import Mathlib.Data.Nat.Notation
import Mathlib.Tactic.Ring

/-!
# Long logs

`InfiniteLog` of `CLog.java`, which the two applications hold in identical copies. It hands a
message to `android.util.Log` in pieces, but in a hundred at most, so that what is behind them is
lost. What throws is `none`.
-/

namespace XposedJniTrace.CLog

/-- The methods of `android.util.Log` that are called. -/
inductive Log where
  | e
  | w
  | i
  | d
  deriving DecidableEq

namespace Log

/-- Priority of `Log.d` -/
def DEBUG : ℤ := 3
/-- Priority of `Log.i` -/
def INFO : ℤ := 4
/-- Priority of `Log.w` -/
def WARN : ℤ := 5
/-- Priority of `Log.e` -/
def ERROR : ℤ := 6

end Log

/-- A call of `android.util.Log`. -/
structure Call where
  method : Log
  tag : List UInt16
  msg : List UInt16
  deriving DecidableEq

/-- The length of a piece. -/
def LOG_MAXLENGTH : ℕ := 2000

/-- `String.substring`, which throws outside the string. -/
def substring (msg : List UInt16) (start stop : ℕ) : Option (List UInt16) :=
  if start ≤ stop ∧ stop ≤ msg.length then some ((msg.drop start).take (stop - start)) else none

/-- The piece goes to the method for the level, if there is one. -/
def output (logLeave : ℤ) (TAG : List UInt16) (piece : Option (List UInt16)) : Option (List Call) :=
  if logLeave = Log.ERROR then piece.map fun text => [⟨.e, TAG, text⟩]
  else if logLeave = Log.WARN then piece.map fun text => [⟨.w, TAG, text⟩]
  else if logLeave = Log.INFO then piece.map fun text => [⟨.i, TAG, text⟩]
  else if logLeave = Log.DEBUG then piece.map fun text => [⟨.d, TAG, text⟩]
  else some []

/-- The loop, with so many rounds left. -/
def InfiniteLog.loop (logLeave : ℤ) (TAG msg : List UInt16) : ℕ → ℕ → ℕ → Option (List Call)
  | 0, _, _ => some []
  | rounds + 1, start, stop =>
    if msg.length > stop then
      (output logLeave TAG (substring msg start stop)).bind fun calls =>
        (loop logLeave TAG msg rounds stop (stop + LOG_MAXLENGTH)).map (calls ++ ·)
    else output logLeave TAG (substring msg start msg.length)

/-- The message in pieces, at most a hundred of them; null is not logged. -/
def InfiniteLog (logLeave : ℤ) (TAG : List UInt16) (msg : Option (List UInt16)) :
    Option (List Call) :=
  match msg with
  | none => some []
  | some msg => InfiniteLog.loop logLeave TAG msg 100 0 LOG_MAXLENGTH

/-- The levels that are logged at. -/
inductive Level where
  | ERROR
  | WARN
  | INFO
  | DEBUG
  deriving DecidableEq

/-- The number of a level. -/
def Level.value : Level → ℤ
  | ERROR => Log.ERROR
  | WARN => Log.WARN
  | INFO => Log.INFO
  | DEBUG => Log.DEBUG

/-- The method that logs at a level. -/
def Level.method : Level → Log
  | ERROR => .e
  | WARN => .w
  | INFO => .i
  | DEBUG => .d

/-- The call that logs a piece. -/
def Level.call (level : Level) (TAG text : List UInt16) : Call := ⟨level.method, TAG, text⟩

/-- The pieces are the message, and none is too long. -/
def LogsWhole (level : Level) (TAG msg : List UInt16) : Prop :=
  ∃ calls, InfiniteLog level.value TAG (some msg) = some calls ∧
    (calls.map Call.msg).flatten = msg ∧ ∀ call ∈ calls, call.msg.length ≤ 2000

variable (level : Level) (TAG msg : List UInt16)

/-- A piece goes to the method of its level. -/
theorem output_value (piece : Option (List UInt16)) :
    output level.value TAG piece = piece.map fun text => [level.call TAG text] := by
  cases level <;> rfl

/-- In the rounds that are left as many characters are logged as they have pieces for, from the
start of the first on. -/
theorem loop_pieces (rounds : ℕ) {start : ℕ} (hstart : start ≤ msg.length) :
    ∃ pieces : List (List UInt16),
      InfiniteLog.loop level.value TAG msg rounds start (start + 2000) =
        some (pieces.map (level.call TAG)) ∧
      pieces.flatten = (msg.drop start).take (2000 * rounds) ∧ ∀ piece ∈ pieces,
        piece.length ≤ 2000 := by
  induction rounds generalizing start with
  | zero => exact ⟨[], rfl, rfl, List.forall_mem_nil _⟩
  | succ rounds ih =>
    rw [InfiniteLog.loop, output_value, output_value]
    split_ifs with hmore
    · have hpiece : substring msg start (start + 2000) = some ((msg.drop start).take 2000) := by
        rw [substring, if_pos ⟨Nat.le_add_right _ _, Nat.le_of_lt hmore⟩, Nat.add_sub_cancel_left]
      obtain ⟨pieces, hloop, hflatten, hshort⟩ := ih (Nat.le_of_lt hmore)
      refine ⟨(msg.drop start).take 2000 :: pieces, ?_, ?_, ?_⟩
      · rw [hpiece, Option.map_some, Option.bind_some, LOG_MAXLENGTH, hloop]
        rfl
      · have hrounds : 2000 * (rounds + 1) = 2000 + 2000 * rounds := by ring
        rw [List.flatten_cons, hflatten, ← List.drop_drop, hrounds, List.take_add]
      · rw [List.forall_mem_cons]
        exact ⟨List.length_take_le _ _, hshort⟩
    · have hlength : (msg.drop start).length ≤ 2000 := by
        rw [List.length_drop]
        omega
      have hpiece : substring msg start msg.length = some (msg.drop start) := by
        rw [substring, if_pos ⟨hstart, Nat.le_refl _⟩, ← List.length_drop, List.take_length]
      refine ⟨[msg.drop start], ?_, ?_, ?_⟩
      · rw [hpiece]
        rfl
      · rw [List.flatten_singleton, List.take_of_length_le (by omega)]
      · rw [List.forall_mem_singleton]
        exact hlength

/-- The first 200000 characters of a message are logged, at its level and with its tag. -/
theorem infiniteLog_pieces :
    ∃ pieces : List (List UInt16), InfiniteLog level.value TAG (some msg) =
        some (pieces.map (level.call TAG)) ∧
      pieces.flatten = msg.take 200000 ∧ ∀ piece ∈ pieces, piece.length ≤ 2000 :=
  loop_pieces level TAG msg 100 (Nat.zero_le _)

/-- A message that is logged as a whole is not longer than a hundred pieces. -/
theorem length_of_logsWhole (h : LogsWhole level TAG msg) : msg.length ≤ 200000 := by
  obtain ⟨calls, hcalls, hwhole, -⟩ := h
  obtain ⟨pieces, hpieces, hflatten, -⟩ := infiniteLog_pieces level TAG msg
  rw [hpieces, Option.some.injEq] at hcalls
  rw [← hcalls, List.map_map] at hwhole
  have hid : Call.msg ∘ level.call TAG = id := rfl
  rw [hid, List.map_id, hflatten] at hwhole
  rw [← hwhole]
  exact List.length_take_le _ _

/-- A message is logged as a whole exactly if a hundred pieces are enough for it. -/
theorem logsWhole_iff : LogsWhole level TAG msg ↔ msg.length ≤ 200000 := by
  constructor
  · exact length_of_logsWhole level TAG msg
  · intro h
    obtain ⟨pieces, hpieces, hflatten, hshort⟩ := infiniteLog_pieces level TAG msg
    refine ⟨_, hpieces, ?_, ?_⟩
    · have hid : Call.msg ∘ level.call TAG = id := rfl
      rw [List.map_map, hid, List.map_id, hflatten, List.take_of_length_le h]
    · rw [List.forall_mem_map]
      exact hshort

/-- The last of 200001 characters is lost. -/
theorem cutOff : ¬ LogsWhole .ERROR [] (List.replicate 200001 0x61) := by
  intro h
  have hlength := length_of_logsWhole _ _ _ h
  rw [List.length_replicate] at hlength
  omega

end XposedJniTrace.CLog
