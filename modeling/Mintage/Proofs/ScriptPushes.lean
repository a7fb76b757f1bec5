import Mintage.Proofs.ScriptNumbers

/-! Scripts read back into what they are made of. However a push is written, it is read as a push of just that content,
and as nothing else, wherever in a script it stands. -/

namespace Mintage.Script

/-- One step of a script: it pushes some bytes, or it is an operation on what has been pushed. -/
inductive Item where
  | push (content : Bytes)
  | operation (opcode : UInt8)
deriving DecidableEq, Repr

/-- The first `count` bytes, if there are so many, and what follows them. -/
def split? (count : Nat) (script : Script) : Option (Bytes × Script) :=
  if count ≤ script.length then some (script.take count, script.drop count) else none

/-- Bytes behind their number, which itself takes `width` of them. -/
def counted? (width : Nat) (script : Script) : Option (Bytes × Script) :=
  (split? width script).bind fun (size, rest) => split? size.toNat rest

/-- What an opcode pushes out of the bytes behind it: as many as its own number, none for zero, or as many as they say
themselves. -/
def content? (opcode : UInt8) (rest : Script) : Option (Bytes × Script) :=
  if opcode < opPushData1 then split? opcode.toNat rest
  else if opcode = opPushData1 then counted? 1 rest
  else if opcode = opPushData2 then counted? 2 rest
  else counted? 4 rest

/-- What an opcode stands for by itself. One pushes minus one, and the sixteen after 0x50 push their distance from it. -/
def lone (opcode : UInt8) : Item :=
  if opcode = opNegativeOne then .push [0x81]
  else if 0x50 < opcode ∧ opcode ≤ 0x60 then .push [opcode - 0x50]
  else .operation opcode

/-- The first item of a script and what follows it. -/
def next? : Script → Option (Item × Script)
  | [] => none
  | opcode :: rest =>
    if opcode ≤ opPushData4 then (content? opcode rest).map fun (content, rest) => (.push content, rest)
    else some (lone opcode, rest)

/-- A reader that decides by the bytes it takes, whatever follows them. -/
def Local {α : Type} (reader : Script → Option (α × Script)) : Prop :=
  ∀ script value rest, reader script = some (value, rest) →
    ∃ taken, script = taken ++ rest ∧ ∀ more, reader (taken ++ more) = some (value, more)

theorem split?_append (content more : Bytes) : split? content.length (content ++ more) = some (content, more) := by
  rw [split?, if_pos (by simp), List.take_left' rfl, List.drop_left' rfl]

theorem local_split? (count : Nat) : Local (split? count) := by
  intro script content rest found
  unfold split? at found
  split at found
  next enough =>
    cases found
    refine ⟨script.take count, (List.take_append_drop ..).symm, fun more => ?_⟩
    have read := split?_append (script.take count) more
    rwa [List.length_take_of_le enough] at read
  next => cases found

theorem counted?_append {content : Bytes} {width : Nat} (short : content.length < 256 ^ width) (more : Bytes) :
    counted? width (Bytes.ofNat width content.length ++ (content ++ more)) = some (content, more) := by
  have size := split?_append (Bytes.ofNat width content.length) (content ++ more)
  have number : (Bytes.ofNat width content.length).toNat = content.length := by
    rw [Bytes.toNat_ofNat, Nat.mod_eq_of_lt short]
  rw [Bytes.length_ofNat] at size
  simp only [counted?, size, Option.bind_some, number, split?_append]

theorem local_counted? (width : Nat) : Local (counted? width) := by
  intro script content rest found
  obtain ⟨⟨size, behind⟩, first, second⟩ := Option.bind_eq_some_iff.mp found
  obtain ⟨number, rfl, readNumber⟩ := local_split? _ _ _ _ first
  obtain ⟨taken, rfl, readContent⟩ := local_split? _ _ _ _ second
  refine ⟨number ++ taken, (List.append_assoc ..).symm, fun more => ?_⟩
  rw [List.append_assoc]
  simp only [counted?, readNumber, Option.bind_some, readContent]

theorem local_content? (opcode : UInt8) : Local (content? opcode) := by
  unfold content?
  split
  · exact local_split? _
  · split
    · exact local_counted? _
    · split
      · exact local_counted? _
      · exact local_counted? _

theorem exists_of_next? {script rest : Script} {item : Item} (found : next? script = some (item, rest)) :
    ∃ taken, taken ≠ [] ∧ script = taken ++ rest ∧ ∀ more, next? (taken ++ more) = some (item, more) := by
  cases script with
  | nil => cases found
  | cons opcode behind =>
    rw [next?] at found
    split at found
    next data =>
      obtain ⟨⟨content, after⟩, read, pushed⟩ := Option.map_eq_some_iff.mp found
      cases pushed
      obtain ⟨taken, rfl, reads⟩ := local_content? _ _ _ _ read
      refine ⟨opcode :: taken, List.cons_ne_nil _ _, rfl, fun more => ?_⟩
      rw [List.cons_append, next?, if_pos data, reads, Option.map_some]
    next alone =>
      cases found
      refine ⟨[opcode], List.cons_ne_nil _ _, rfl, fun more => ?_⟩
      rw [List.singleton_append, next?, if_neg alone]

theorem length_lt_of_next? {script rest : Script} {item : Item} (found : next? script = some (item, rest)) :
    rest.length < script.length := by
  obtain ⟨taken, nonempty, rfl, _⟩ := exists_of_next? found
  rw [List.length_append]
  exact Nat.lt_add_of_pos_left (List.length_pos_of_ne_nil nonempty)

/-- All items of a script; nothing if the last push is cut short. -/
def items? (script : Script) : Option (List Item) :=
  if script = [] then some []
  else
    match _ : next? script with
    | none => none
    | some (item, rest) => (items? rest).map (item :: ·)
termination_by script.length
decreasing_by exact length_lt_of_next? ‹_›

theorem items?_of_next? {script rest : Script} {item : Item} (found : next? script = some (item, rest)) :
    items? script = (items? rest).map (item :: ·) := by
  have nonempty : script ≠ [] := by
    rintro rfl
    cases found
  rw [items?, if_neg nonempty]
  split
  next none =>
    rw [none] at found
    cases found
  next other =>
    rw [other] at found
    cases found
    rfl

/-- What has been read of a script is not read otherwise when more is added. -/
theorem items?_append {script : Script} {items : List Item} (read : items? script = some items) (more : Script) :
    items? (script ++ more) = (items? more).map (items ++ ·) := by
  fun_induction items? script generalizing items with
  | case1 =>
    cases read
    simp
  | case2 => cases read
  | case3 script _ item rest found ih =>
    obtain ⟨later, readLater, rfl⟩ := Option.map_eq_some_iff.mp read
    -- The added bytes come after what the first item takes, so it is read as before.
    obtain ⟨taken, _, rfl, reads⟩ := exists_of_next? found
    rw [List.append_assoc, items?_of_next? (reads _), ih readLater, Option.map_map]
    rfl

/-- A script that pushes just this content, whatever comes after it and behind every script that can be read. -/
structure Pushes (script : Script) (content : Bytes) : Prop where
  alone : items? script = some [.push content]
  leading : ∀ more, next? (script ++ more) = some (.push content, more)
  trailing : ∀ before items, items? before = some items → items? (before ++ script) = some (items ++ [.push content])

theorem Pushes.of_leading {script : Script} {content : Bytes}
    (leading : ∀ more, next? (script ++ more) = some (.push content, more)) : Pushes script content := by
  have alone : items? script = some [.push content] := by
    have found := leading []
    rw [List.append_nil] at found
    rw [items?_of_next? found, items?, if_pos rfl]
    rfl
  refine ⟨alone, leading, fun before items read => ?_⟩
  rw [items?_append read, alone]
  rfl

/-- The three opcodes that have the length of the content behind them differ in its width alone. -/
theorem pushes_counted {opcode : UInt8} {content : Bytes} (width : Nat)
    (counted : ∀ rest, next? (opcode :: rest) = (counted? width rest).map fun (content, rest) => (.push content, rest))
    (short : content.length < 256 ^ width) : Pushes (opcode :: Bytes.ofNat width content.length ++ content) content := by
  apply Pushes.of_leading
  intro more
  rw [List.cons_append, List.cons_append, List.append_assoc, counted, counted?_append short]
  rfl

theorem pushes_push {content : Bytes} (short : content.length < 2 ^ 32) : Pushes (push content) content := by
  simp only [push]
  split
  next direct =>
    have opcode : (UInt8.ofNat content.length).toNat = content.length := by
      rw [UInt8.toNat_ofNat']
      omega
    have below : UInt8.ofNat content.length < opPushData1 := by
      rw [UInt8.lt_iff_toNat_lt, opcode]
      exact direct
    apply Pushes.of_leading
    intro more
    rw [List.cons_append, next?, if_pos (UInt8.le_trans (UInt8.le_of_lt below) (by decide)), content?, if_pos below,
      opcode, split?_append]
    rfl
  next =>
    split
    next byte => exact pushes_counted 1 (fun _ => rfl) (Nat.lt_succ_of_le byte)
    next =>
      split
      next word => exact pushes_counted 2 (fun _ => rfl) (Nat.lt_succ_of_le word)
      next => exact pushes_counted 4 (fun _ => rfl) short

theorem pushes_small {n : Nat} (positive : 1 ≤ n) (small : n ≤ 16) : Pushes [UInt8.ofNat (0x50 + n)] (number n) := by
  have opcodes : ∀ n < 17, 1 ≤ n → opPushData4 < UInt8.ofNat (0x50 + n) ∧
      lone (.ofNat (0x50 + n)) = .push [.ofNat n] ∧ value [.ofNat n] = n := by decide
  obtain ⟨above, stands, same⟩ := opcodes n (Nat.lt_succ_of_le small) positive
  apply Pushes.of_leading
  intro more
  rw [number_eq_singleton (by omega) same, List.singleton_append, next?, if_neg (UInt8.not_le.mpr above), stands]

/-- Small numbers are pushed in the bytes that a push with a length would have for them. -/
theorem pushes_pushInt {n : Int} (short : (number n).length < 2 ^ 32) : Pushes (pushInt n) (number n) := by
  unfold pushInt
  split
  next zero =>
    have nothing : ([] : Bytes).length < 2 ^ 32 := by decide
    rw [zero, number_zero]
    exact pushes_push nothing
  next =>
    split
    next one =>
      have negative : number (-1) = [0x81] := number_eq_singleton (by decide) (by decide)
      rw [one, negative]
      exact Pushes.of_leading fun _ => rfl
    next =>
      split
      next between =>
        obtain ⟨size, rfl⟩ := Int.eq_ofNat_of_zero_le (Int.le_trans Int.one_nonneg between.1)
        exact pushes_small (by omega) (by omega)
      next => exact pushes_push short

/-- Every integer of a word is written in the only bytes of the least length that have its sign at the top of the last
byte and its magnitude in the rest, and pushed as just these; every content with a length of four bytes is pushed as it
is. -/
theorem pushed_numbers_read_back :
    (∀ n : Int64, value (number n.toInt) = n.toInt ∧ (∀ bytes, Shortest n.toInt bytes ↔ bytes = number n.toInt) ∧
      Pushes (pushInt n.toInt) (number n.toInt)) ∧
    ∀ content : Bytes, content.length < 2 ^ 32 → Pushes (push content) content := by
  refine ⟨fun n => ⟨value_number _, fun _ => shortest_iff, pushes_pushInt ?short⟩, fun _ => pushes_push⟩
  case short =>
    have low := n.le_toInt
    have high := n.toInt_lt
    have length : (number n.toInt).length ≤ 8 + 1 := length_sign_magnitude_le _ (by omega)
    omega

/-- The least integer has a magnitude of eight bytes that needs the top bit itself. -/
theorem least_integer_reads_back :
    (List.replicate 256 0xff : Bytes).length < 2 ^ 32 ∧
      items? (push (List.replicate 256 0xff)) = some [.push (List.replicate 256 0xff)] ∧
      value [0, 0, 0, 0, 0, 0, 0, 0x80, 0x80] = Int64.minValue.toInt ∧
      (¬ ∃ bytes, value bytes = Int64.minValue.toInt ∧ bytes.length < 9) ∧
      items? (pushInt Int64.minValue.toInt) = some [.push [0, 0, 0, 0, 0, 0, 0, 0x80, 0x80]] := by
  obtain ⟨integers, contents⟩ := pushed_numbers_read_back
  obtain ⟨same, shortest, pushes⟩ := integers Int64.minValue
  have short : (List.replicate 256 0xff : Bytes).length < 2 ^ 32 := by
    rw [List.length_replicate]
    decide
  have form : number Int64.minValue.toInt = [0, 0, 0, 0, 0, 0, 0, 0x80, 0x80] := by
    simp [number, magnitude, sign]
  have least := (shortest _).mpr rfl
  rw [form] at same least pushes
  refine ⟨short, (contents _ short).alone, same, ?_, pushes.alone⟩
  rintro ⟨bytes, reads, fewer⟩
  exact absurd (least.length_le bytes reads) (Nat.not_le.mpr fewer)

end Mintage.Script
