import XposedJniTrace.Linker.GetAddr
import XposedJniTrace.Trace.Mylibc

/-!
# The base of a module

What `get_addr` is to find in the lines that the kernel writes: the start of the first mapping whose
whole pathname is the name. It sees a pathname up to its first blank and up to the end of the
buffer, and it takes what is left of a line that does not fit for lines of their own. So the first
line that shows the name to it need not be the mapping that is asked for.
-/

namespace XposedJniTrace.GetAddr

open Maps (fgets isspace hexValue hexDigit hexDigits digitsValue notMem_of_no_space)
open Mylibc (ascii)

/-- A line of the maps whose numbers have at most so many digits and whose pathname stands behind at
most so many blanks. -/
structure Line extends Maps.Line where
  begin_length : beginDigits.length ≤ 16
  end_length : endDigits.length ≤ 16
  offset_length : offsetDigits.length ≤ 16
  inode_length : inodeDigits.length ≤ 20
  gap_le : gap ≤ 80

/-- A name without blanks. -/
structure ModuleName where
  bytes : List UInt8
  no_blank : 0x20 ∉ bytes

/-- The words of a text, with blanks between them. -/
def words (s : List UInt8) : List (List UInt8) := (s.splitOnP (· == 0x20)).filter (· ≠ [])

/-- What the buffer holds, one time after the other, of a line without its newline. -/
def pieces (s : List UInt8) : List (List UInt8) :=
  if _h : s.length < BUFSIZ - 1 then [s] else s.take (BUFSIZ - 1) :: pieces (s.drop (BUFSIZ - 1))
termination_by s.length
decreasing_by
  rw [List.length_drop]
  have hpos : 0 < BUFSIZ - 1 := by decide
  omega

/-- A piece of a line has the name for its sixth word. -/
def Sixth (name : ModuleName) (piece : List UInt8) : Prop := (words piece)[5]? = some name.bytes

namespace Line

variable (line : Line)

/-- The whole pathname is the name. -/
def Names (name : ModuleName) : Prop := line.pathname.map Maps.Pathname.bytes = some name.bytes

instance (name : ModuleName) : Decidable (line.Names name) := inferInstanceAs (Decidable (_ = _))

/-- The line fits the buffer, but for its newline. -/
def Fits : Prop := line.body.length ≤ BUFSIZ - 1

instance : Decidable line.Fits := inferInstanceAs (Decidable (_ ≤ _))

/-- Some piece of the line has the name for its sixth word. -/
def Shows (name : ModuleName) : Prop := ∃ piece ∈ pieces line.body, Sixth name piece

end Line

/-- The text of the maps. -/
def text (lines : List Line) : List UInt8 := lines.flatMap fun line => line.bytes

/-- The start of the first mapping whose whole pathname is the name, and 0 when there is none. -/
def base (name : ModuleName) : List Line → ℕ
  | [] => 0
  | line :: lines => if line.Names name then line.begin else base name lines

/-- The base is what is returned. -/
def ReturnsBase (name : ModuleName) (lines : List Line) : Prop :=
  get_addr name.bytes (text lines) = base name lines

/-- The lines tell the base of the name. -/
inductive Told (name : ModuleName) (lines : List Line) : Prop where
  /-- No line shows the name, and no mapping has it. -/
  | absent (unseen : ∀ line ∈ lines, ¬ line.Shows name)
    (unnamed : ∀ line ∈ lines, ¬ line.Names name)
  /-- The first line that shows the name or has it for its pathname has it, and fits the buffer. -/
  | foundFirst (before : List Line) (line : Line) (after : List Line)
      (split : lines = before ++ line :: after)
      (unseen : ∀ line ∈ before, ¬ line.Shows name) (unnamed : ∀ line ∈ before, ¬ line.Names name)
      (names : line.Names name) (fits : line.Fits)

/-- Another line shows the name first, or none does, and the base happens to be the number in front,
or 0. -/
inductive RightByAccident (name : ModuleName) (lines : List Line) : Prop where
  /-- The first piece that has the name for its sixth word belongs to another line, and its first
  word spells the base. -/
  | spelt (before : List Line) (line : Line) (after : List Line) (front : List (List UInt8))
      (piece : List UInt8) (back : List (List UInt8)) (word : List UInt8)
      (split : lines = before ++ line :: after) (cut : pieces line.body = front ++ piece :: back)
      (unseen : ∀ line ∈ before, ¬ line.Shows name) (earlier : ∀ piece ∈ front, ¬ Sixth name piece)
      (other : ¬ line.Names name ∨ ∃ line ∈ before, line.Names name) (sixth : Sixth name piece)
      (first : (words piece)[0]? = some word) (number : strtoul word = base name lines)
  /-- The mapping that has the name is not shown, and it starts at 0. -/
  | zero (unseen : ∀ line ∈ lines, ¬ line.Shows name) (named : ∃ line ∈ lines, line.Names name)
      (number : base name lines = 0)

section Base

variable {name : ModuleName}

/-- No mapping with the name, no base. -/
theorem base_of_unnamed {lines : List Line} (h : ∀ line ∈ lines, ¬ line.Names name) :
    base name lines = 0 := by
  induction lines with
  | nil => rfl
  | cons line lines ih =>
    rw [base, if_neg (h line List.mem_cons_self)]
    exact ih fun later hlater => h later (List.mem_cons_of_mem line hlater)

/-- The first mapping with the name has the base. -/
theorem base_of_first {before after : List Line} {line : Line}
    (hbefore : ∀ line ∈ before, ¬ line.Names name) (hline : line.Names name) :
    base name (before ++ line :: after) = line.begin := by
  induction before with
  | nil => rw [List.nil_append, base, if_pos hline]
  | cons earlier before ih =>
    rw [List.cons_append, base, if_neg (hbefore earlier List.mem_cons_self)]
    exact ih fun line hmem => hbefore line (List.mem_cons_of_mem earlier hmem)

end Base

section Tokens

/-- A word up to the next blank is the first word. -/
theorem words_word {word : List UInt8} (hsome : word ≠ []) (hword : 0x20 ∉ word)
    (rest : List UInt8) : words (word ++ 0x20 :: rest) = word :: words rest := by
  have hblank : ∀ c ∈ word, (c == 0x20) = false := fun c hc =>
    beq_false_of_ne (ne_of_mem_of_not_mem hc hword)
  rw [words, List.splitOnP_append_cons_of_forall_mem hblank _ rfl, List.filter_cons_of_pos]
  · rfl
  · exact decide_eq_true hsome

/-- A text without blanks is one word. -/
theorem words_last {word : List UInt8} (hsome : word ≠ []) (hword : 0x20 ∉ word) :
    words word = [word] := by
  have hblank : ∀ c ∈ word, (c == 0x20) = false := fun c hc =>
    beq_false_of_ne (ne_of_mem_of_not_mem hc hword)
  rw [words, List.splitOnP_eq_singleton hblank, List.filter_cons_of_pos, List.filter_nil]
  exact decide_eq_true hsome

/-- A blank in front belongs to no word. -/
theorem words_blank (s : List UInt8) : words (0x20 :: s) = words s := by
  have hnone : ∀ c ∈ ([] : List UInt8), (c == 0x20) = false := List.forall_mem_nil _
  have hfirst : (0x20 :: s).splitOnP (· == 0x20) = [] :: s.splitOnP (· == 0x20) :=
    List.splitOnP_append_cons_of_forall_mem hnone _ rfl s
  rw [words, hfirst, List.filter_cons_of_neg]
  · rfl
  · exact fun h => of_decide_eq_true h rfl

/-- Blanks in front belong to no word. -/
theorem words_blanks (n : ℕ) (s : List UInt8) : words (List.replicate n 0x20 ++ s) = words s := by
  induction n with
  | zero => rfl
  | succ n ih => rw [List.replicate_succ, List.cons_append, words_blank, ih]

/-- A call of `strtok` takes the first word and keeps what has the others. -/
theorem strtok_words (s : List UInt8) :
    words s = [] ∧ strtok (some s) = (none, none) ∨
    ∃ word, words s = [word] ∧ strtok (some s) = (some word, none) ∨
      ∃ rest, words s = word :: words rest ∧ strtok (some s) = (some word, some rest) := by
  induction s with
  | nil => exact .inl ⟨rfl, rfl⟩
  | cons c s ih =>
    by_cases hc : c = 0x20
    · rw [hc, words_blank]
      have hskip := strtok_blanks 1 s
      rw [List.replicate_one, List.singleton_append] at hskip
      rwa [hskip]
    · by_cases hblank : 0x20 ∈ c :: s
      · obtain ⟨word, rest, hsplit, hword⟩ := List.eq_append_cons_of_mem hblank
        have hsome : word ≠ [] := by
          intro hnil
          rw [hnil, List.nil_append] at hsplit
          exact hc (List.cons.inj hsplit).1
        rw [hsplit, words_word hsome hword, strtok_word hsome hword]
        exact .inr ⟨word, .inr ⟨rest, rfl, rfl⟩⟩
      · have hsome : c :: s ≠ [] := List.cons_ne_nil _ _
        rw [words_last hsome hblank, strtok_last hsome hblank]
        exact .inr ⟨c :: s, .inl ⟨rfl, rfl⟩⟩

/-- The tokens are the words. -/
theorem tok_words (i : ℕ) (s : List UInt8) : tok i (some s) = (words s)[i]? := by
  induction i generalizing s with
  | zero =>
    rw [tok]
    rcases strtok_words s with ⟨hwords, htok⟩ | ⟨word, ⟨hwords, htok⟩ | ⟨rest, hwords, htok⟩⟩ <;>
      rw [hwords, htok] <;> rfl
  | succ i ih =>
    rw [tok]
    rcases strtok_words s with ⟨hwords, htok⟩ | ⟨word, ⟨hwords, htok⟩ | ⟨rest, hwords, htok⟩⟩
    · rw [hwords, htok, tok_none, List.getElem?_nil]
    · rw [hwords, htok, tok_none, List.getElem?_cons_succ, List.getElem?_nil]
    · rw [hwords, htok, ih, List.getElem?_cons_succ]

/-- What is looked for in a piece is told by its words. -/
theorem look_words (name piece : List UInt8) :
    look name piece =
      if (words piece)[5]? = some name then some (strtoul ((words piece)[0]?.getD []))
        else none := by
  rw [look, tok_words, tok_words]
  cases (words piece)[5]? with
  | none => rfl
  | some word => simp only [Option.some.injEq]

/-- A piece gives a number exactly when its sixth word is the name. -/
theorem look_eq_none_iff {name : ModuleName} {piece : List UInt8} :
    look name.bytes piece = none ↔ ¬ Sixth name piece := by
  rw [look_words, Sixth, ite_eq_right_iff]
  exact forall_congr' fun _ => iff_false_intro (Option.some_ne_none _)

/-- The number of a piece is spelt by its first word. -/
theorem look_eq_some {name : ModuleName} {piece : List UInt8} {number : ℕ}
    (h : look name.bytes piece = some number) :
    Sixth name piece ∧ ∃ word, (words piece)[0]? = some word ∧ strtoul word = number := by
  rw [look_words] at h
  split_ifs at h with hsixth
  have hlength : 5 < (words piece).length := (List.getElem?_eq_some_iff.mp hsixth).1
  have hfirst : (words piece)[0]? = some (words piece)[0] := List.getElem?_eq_getElem (by omega)
  rw [hfirst] at h
  exact ⟨hsixth, (words piece)[0], hfirst, Option.some.inj h⟩

end Tokens

section Pieces

/-- `fgets` fills its buffer from a line that does not fit. -/
theorem fgets_full {n : ℕ} {s : List UInt8} (hnewline : 0x0a ∉ s) (hlong : n ≤ s.length)
    (rest : List UInt8) : fgets n (s ++ rest) = (s.take n, s.drop n ++ rest) := by
  induction n generalizing s with
  | zero => cases s <;> rfl
  | succ n ih =>
    cases s with
    | nil => exact absurd hlong (Nat.not_succ_le_zero n)
    | cons c s =>
      obtain ⟨hc, hlater⟩ := List.ne_and_not_mem_of_not_mem_cons hnewline
      rw [List.cons_append, fgets, if_neg hc.symm, ih hlater (Nat.le_of_succ_le_succ hlong)]
      rfl

/-- A newline at the end is taken off. -/
theorem chomp_newline (s : List UInt8) : chomp (s ++ [0x0a]) = s := by
  rw [chomp, List.getLast?_concat, if_pos rfl, List.dropLast_concat]

/-- A text without newlines stays as it is. -/
theorem chomp_of_notMem {s : List UInt8} (h : 0x0a ∉ s) : chomp s = s := by
  rw [chomp, if_neg]
  intro hlast
  exact h (List.mem_of_getLast? hlast)

/-- A line is looked at piece by piece. -/
theorem get_addr_line (name : List UInt8) {s : List UInt8} (hnewline : 0x0a ∉ s)
    (rest : List UInt8) :
    get_addr name (s ++ 0x0a :: rest) =
      ((pieces s).findSome? (look name)).getD (get_addr name rest) := by
  fun_induction pieces s with
  | case1 s hlt =>
    have hsome : s ++ 0x0a :: rest ≠ [] := by simp
    rw [get_addr, dif_neg hsome, Maps.fgets_line hnewline hlt]
    simp only [chomp_newline]
    cases hlook : look name s with
    | none => simp [hlook]
    | some r => simp [hlook]
  | case2 s hge ih =>
    have hsome : s ++ 0x0a :: rest ≠ [] := by simp
    have htake : 0x0a ∉ s.take (BUFSIZ - 1) := fun h => hnewline (List.mem_of_mem_take h)
    have hdrop : 0x0a ∉ s.drop (BUFSIZ - 1) := fun h => hnewline (List.mem_of_mem_drop h)
    rw [get_addr, dif_neg hsome, fgets_full hnewline (Nat.le_of_not_lt hge)]
    simp only [chomp_of_notMem htake, ih hdrop]
    cases hlook : look name (s.take (BUFSIZ - 1)) with
    | none => simp [hlook]
    | some r => simp [hlook]

/-- Pieces without a blank show nothing. -/
theorem findSome?_pieces_of_no_blank (name : List UInt8) {s : List UInt8} (h : 0x20 ∉ s) :
    (pieces s).findSome? (look name) = none := by
  have hlook {s : List UInt8} (h : 0x20 ∉ s) : look name s = none := by
    rw [look, tok_succ_last h]
  fun_induction pieces s with
  | case1 s hlt => simp [hlook h]
  | case2 s hge ih =>
    have htake : 0x20 ∉ s.take (BUFSIZ - 1) := fun hmem => h (List.mem_of_mem_take hmem)
    have hdrop : 0x20 ∉ s.drop (BUFSIZ - 1) := fun hmem => h (List.mem_of_mem_drop hmem)
    simp [hlook htake, ih hdrop]

end Pieces

section Lines

/-- Digits behind a value make it less than a power of sixteen times the next one. -/
theorem foldl_digits_lt (value : ℕ) (digits : List (Fin 16)) :
    digits.foldl (fun value d => 16 * value + d.val) value < (value + 1) * 16 ^ digits.length := by
  induction digits generalizing value with
  | nil => simp
  | cons d digits ih =>
    have hd : 16 * value + d.val + 1 ≤ (value + 1) * 16 := by omega
    have hmul := Nat.mul_le_mul_right (16 ^ digits.length) hd
    rw [List.foldl_cons, List.length_cons, Nat.pow_succ', ← Nat.mul_assoc]
    exact (ih _).trans_le hmul

/-- A number of up to sixteen digits has 64 bits. -/
theorem digitsValue_lt {digits : List (Fin 16)} (hlength : digits.length ≤ 16) :
    digitsValue digits < 2 ^ 64 := by
  have hlt := foldl_digits_lt 0 digits
  have hpow : 16 ^ digits.length ≤ 16 ^ 16 := Nat.pow_le_pow_right (by decide) hlength
  rw [Nat.zero_add, Nat.one_mul] at hlt
  exact hlt.trans_le hpow

/-- No sign is in front of digits. -/
theorem sign_digit (d : Fin 16) (s : List UInt8) :
    sign (hexDigit d :: s) = (false, hexDigit d :: s) := by
  have hnoSign : ∀ d : Fin 16, hexDigit d ≠ 0x2d ∧ hexDigit d ≠ 0x2b := by decide
  rw [sign, if_neg (hnoSign d).1, if_neg (hnoSign d).2]

/-- Digits up to a dash have no radix in front. -/
theorem pastRadix_digits (d : Fin 16) (digits : List (Fin 16)) (s : List UInt8) :
    pastRadix (hexDigit d :: (digits.map hexDigit ++ 0x2d :: s)) =
      hexDigit d :: (digits.map hexDigit ++ 0x2d :: s) := by
  have hnoRadix : ∀ d : Fin 16, ¬ (hexDigit d = 0x78 ∨ hexDigit d = 0x58) := by decide
  cases digits with
  | nil => exact if_neg fun h => absurd h.2 (by decide)
  | cons d' digits => exact if_neg fun h => hnoRadix d' h.2

/-- The number in front of a dash is read. -/
theorem strtoul_digits {digits : List (Fin 16)} (hsome : digits ≠ []) (hlength : digits.length ≤ 16)
    (s : List UInt8) : strtoul (digits.map hexDigit ++ 0x2d :: s) = digitsValue digits := by
  have hlt := digitsValue_lt hlength
  have hread := Maps.hexDigits_map 0 digits (c := 0x2d) (by decide) s
  cases digits with
  | nil => exact absurd rfl hsome
  | cons d digits =>
    rw [List.map_cons, List.cons_append] at hread ⊢
    have hnospace : (hexDigit d :: (digits.map hexDigit ++ 0x2d :: s)).dropWhile isspace =
        hexDigit d :: (digits.map hexDigit ++ 0x2d :: s) :=
      List.dropWhile_cons_of_neg (by simp [Maps.isspace_hexDigit])
    change _ = (digitsValue (d :: digits), _) at hread
    simp only [strtoul, hnospace, sign_digit, pastRadix_digits, hread]
    rw [if_neg (Nat.not_le_of_lt hlt), if_neg Bool.false_ne_true]

variable {name : ModuleName} (line : Line)

/-- The number that a line shows behind the name. -/
def Line.shown (name : ModuleName) (line : Line) : Option ℕ :=
  (pieces line.body).findSome? (look name.bytes)

/-- A line gives a number exactly when it shows the name. -/
theorem Line.shown_eq_none_iff : line.shown name = none ↔ ¬ line.Shows name := by
  rw [Line.shown, List.findSome?_eq_none_iff, Line.Shows]
  simp only [look_eq_none_iff, not_exists, not_and]

/-- The words of a line are its fields, and the words of its pathname. -/
theorem Line.words_header (s : List UInt8) :
    words (line.header ++ s) = line.text :: line.perms.bytes :: line.offsetDigits.map hexDigit ::
      line.dev.bytes :: line.inodeDigits.map Maps.decDigit :: words s := by
  have htext : line.text ≠ [] := List.append_ne_nil_of_right_ne_nil _ (List.cons_ne_nil _ _)
  have hoffset : line.offsetDigits.map hexDigit ≠ [] := mt List.map_eq_nil_iff.mp line.offset_digits
  have hinode : line.inodeDigits.map Maps.decDigit ≠ [] :=
    mt List.map_eq_nil_iff.mp line.inode_digits
  simp only [Maps.Line.header, List.append_assoc, List.cons_append]
  rw [words_word htext (notMem_of_no_space line.no_space rfl),
    words_word line.perms.nonempty (notMem_of_no_space line.perms.no_space rfl),
    words_word hoffset (notMem_of_no_space (Maps.no_space_hex _) rfl),
    words_word line.dev.nonempty (notMem_of_no_space line.dev.no_space rfl),
    words_word hinode (notMem_of_no_space (Maps.no_space_dec _) rfl), words_blanks]

/-- A piece with the header shows the first word behind it. -/
theorem Line.look_header (name s : List UInt8) :
    look name (line.header ++ s) =
      if (words s)[0]? = some name then some line.begin else none := by
  have hnumber : strtoul line.text = line.begin :=
    strtoul_digits line.begin_digits line.begin_length _
  rw [look_words, line.words_header]
  simp only [List.getElem?_cons_succ, List.getElem?_cons_zero, Option.getD_some, hnumber]

/-- The header of a line is short. -/
theorem Line.length_header : line.header.length ≤ 200 := by
  have hbegin := line.begin_length
  have hend := line.end_length
  have hperms := line.perms.length_lt
  have hoffset := line.offset_length
  have hdev := line.dev.length_lt
  have hinode := line.inode_length
  have hgap := line.gap_le
  simp only [Maps.Line.header, Maps.Bounds.text, List.length_append, List.length_cons,
    List.length_map, List.length_replicate]
  omega

/-- A pathname that is the name is what stands behind the header. -/
theorem Line.Names.path_eq {line : Line} (h : line.Names name) : line.path = name.bytes := by
  rw [Maps.Line.path, h]
  rfl

/-- A name that a mapping has is not empty. -/
theorem Line.Names.nonempty {line : Line} (h : line.Names name) : name.bytes ≠ [] := by
  obtain ⟨pathname, -, hbytes⟩ := Option.map_eq_some_iff.mp h
  rw [← hbytes]
  exact pathname.nonempty

/-- A line that fits the buffer shows the first word of its pathname. -/
theorem Line.shown_of_fits (hfits : line.Fits) :
    line.shown name =
      if (words line.path)[0]? = some name.bytes then some line.begin else none := by
  have hlook := line.look_header name.bytes line.path
  change look name.bytes line.body = _ at hlook
  rw [Line.Fits] at hfits
  -- the newline of a line that just fits is a piece of its own
  have hpieces : line.shown name = (look name.bytes line.body).or
      (if line.body.length < BUFSIZ - 1 then none
        else (pieces []).findSome? (look name.bytes)) := by
    rw [Line.shown, pieces]
    split_ifs with hlt
    · rw [List.findSome?_cons, Option.or_none]
      cases look name.bytes line.body with
      | none => rfl
      | some r => rfl
    · rw [List.take_of_length_le hfits, List.drop_of_length_le hfits, List.findSome?_cons]
      cases look name.bytes line.body with
      | none => rfl
      | some r => rfl
  rw [hpieces, hlook, findSome?_pieces_of_no_blank name.bytes List.not_mem_nil, ite_self,
    Option.or_none]

/-- A mapping of the name whose line fits the buffer shows it. -/
theorem Line.Names.shown_of_fits {line : Line} (h : line.Names name) (hfits : line.Fits) :
    line.shown name = some line.begin := by
  rw [line.shown_of_fits hfits, h.path_eq, words_last h.nonempty name.no_blank]
  exact if_pos rfl

/-- A mapping of the name whose line does not fit the buffer does not show it. -/
theorem Line.Names.shown_of_not_fits {line : Line} (h : line.Names name) (hfits : ¬ line.Fits) :
    line.shown name = none := by
  have hheader := line.length_header
  have hsize : BUFSIZ - 1 = 1023 := rfl
  rw [Line.Fits, hsize] at hfits
  have hbody : line.body.length = line.header.length + name.bytes.length := by
    rw [Maps.Line.body, List.length_append, h.path_eq]
  have htake : line.body.take (BUFSIZ - 1) =
      line.header ++ name.bytes.take (BUFSIZ - 1 - line.header.length) := by
    rw [Maps.Line.body, h.path_eq, List.take_append, List.take_of_length_le (by omega)]
  have hdrop : line.body.drop (BUFSIZ - 1) = name.bytes.drop (BUFSIZ - 1 - line.header.length) := by
    rw [Maps.Line.body, h.path_eq, List.drop_append, List.drop_of_length_le (by omega),
      List.nil_append]
  have hfront : 0x20 ∉ name.bytes.take (BUFSIZ - 1 - line.header.length) := fun hmem =>
    name.no_blank (List.mem_of_mem_take hmem)
  have hback : 0x20 ∉ name.bytes.drop (BUFSIZ - 1 - line.header.length) := fun hmem =>
    name.no_blank (List.mem_of_mem_drop hmem)
  have hlength : (name.bytes.take (BUFSIZ - 1 - line.header.length)).length =
      BUFSIZ - 1 - line.header.length := by
    rw [List.length_take]
    omega
  have hsome : name.bytes.take (BUFSIZ - 1 - line.header.length) ≠ [] := by
    intro hnil
    rw [hnil, List.length_nil] at hlength
    omega
  -- the buffer ends inside the name
  have hother : name.bytes.take (BUFSIZ - 1 - line.header.length) ≠ name.bytes := by
    intro heq
    rw [heq] at hlength
    omega
  rw [Line.shown, pieces, dif_neg (by omega), htake, hdrop, List.findSome?_cons, line.look_header,
    words_last hsome hfront, List.getElem?_cons_zero,
    if_neg (fun heq => hother (Option.some.inj heq))]
  exact findSome?_pieces_of_no_blank name.bytes hback

end Lines

section Search

variable {name : ModuleName}

/-- The first line that shows the name gives the number. -/
theorem get_addr_text (name : ModuleName) (lines : List Line) :
    get_addr name.bytes (text lines) = (lines.findSome? (Line.shown name)).getD 0 := by
  induction lines with
  | nil => rw [text, List.flatMap_nil, get_addr, dif_pos rfl, List.findSome?_nil, Option.getD_none]
  | cons line lines ih =>
    have htext : text (line :: lines) = line.body ++ 0x0a :: text lines := by
      rw [text, List.flatMap_cons, Maps.Line.bytes, List.append_assoc]
      rfl
    rw [htext, get_addr_line _ line.newline_notMem_body, ih, List.findSome?_cons]
    change (line.shown name).getD _ = _
    cases line.shown name with
    | none => rfl
    | some r => rfl

/-- The lines split at the first that shows the name. -/
theorem findSome?_of_split {before after : List Line} {line : Line} {number : ℕ}
    (hbefore : ∀ line ∈ before, ¬ line.Shows name) (hline : line.shown name = some number) :
    (before ++ line :: after).findSome? (Line.shown name) = some number := by
  have hnone : before.findSome? (Line.shown name) = none :=
    List.findSome?_eq_none_iff.mpr fun line hmem => line.shown_eq_none_iff.mpr (hbefore line hmem)
  rw [List.findSome?_append, hnone, Option.none_or, List.findSome?_cons, hline]

/-- Where no line shows the name, 0 is returned. -/
theorem findSome?_eq_none_iff {lines : List Line} :
    lines.findSome? (Line.shown name) = none ↔ ∀ line ∈ lines, ¬ line.Shows name := by
  rw [List.findSome?_eq_none_iff]
  exact forall₂_congr fun line _ => line.shown_eq_none_iff

/-- The base is returned where the lines tell it. -/
theorem Told.returnsBase {lines : List Line} (h : Told name lines) : ReturnsBase name lines := by
  rw [ReturnsBase, get_addr_text]
  cases h with
  | absent hunseen hunnamed =>
    rw [findSome?_eq_none_iff.mpr hunseen, base_of_unnamed hunnamed, Option.getD_none]
  | foundFirst before line after hsplit hunseen hunnamed hnames hfits =>
    rw [hsplit, findSome?_of_split hunseen (hnames.shown_of_fits hfits),
      base_of_first hunnamed hnames, Option.getD_some]

/-- What is returned right is told by the first line that shows the name, if there is one. -/
theorem ReturnsBase.cases {lines : List Line} (h : ReturnsBase name lines) :
    Told name lines ∨ RightByAccident name lines := by
  rw [ReturnsBase, get_addr_text] at h
  cases hshown : lines.findSome? (Line.shown name) with
  | none =>
    have hunseen := findSome?_eq_none_iff.mp hshown
    rw [hshown, Option.getD_none] at h
    by_cases hnamed : ∃ line ∈ lines, line.Names name
    · exact .inr (.zero hunseen hnamed h.symm)
    · exact .inl (.absent hunseen fun line hline hnames => hnamed ⟨line, hline, hnames⟩)
  | some number =>
    rw [hshown, Option.getD_some] at h
    obtain ⟨before, line, after, hsplit, hline, hbefore⟩ := List.findSome?_eq_some_iff.mp hshown
    have hunseen : ∀ line ∈ before, ¬ line.Shows name := fun line hmem =>
      line.shown_eq_none_iff.mp (hbefore line hmem)
    by_cases hother : ¬ line.Names name ∨ ∃ line ∈ before, line.Names name
    · obtain ⟨front, piece, back, hcut, hpiece, hfront⟩ := List.findSome?_eq_some_iff.mp hline
      obtain ⟨hsixth, word, hword, hnumber⟩ := look_eq_some hpiece
      exact .inr (.spelt before line after front piece back word hsplit hcut hunseen
        (fun piece hmem => look_eq_none_iff.mp (hfront piece hmem)) hother hsixth hword
        (hnumber.trans h))
    · obtain ⟨hnames, hearlier⟩ := not_or.mp hother
      have hnames := not_not.mp hnames
      refine .inl (.foundFirst before line after hsplit hunseen ?_ hnames ?_)
      · exact fun line hmem hnames => hearlier ⟨line, hmem, hnames⟩
      · by_contra hfits
        rw [hnames.shown_of_not_fits hfits] at hline
        cases hline

/-- The base is returned where the lines tell it, and elsewhere only by accident. -/
theorem returnsBase_told (name : ModuleName) (lines : List Line) :
    (Told name lines → ReturnsBase name lines) ∧
      (ReturnsBase name lines → Told name lines ∨ RightByAccident name lines) :=
  ⟨Told.returnsBase, ReturnsBase.cases⟩

end Search

/-- The digits of a number in the text of a line. -/
def digits (s : String) : List (Fin 16) :=
  (ascii s).filterMap fun c => (List.finRange 16).find? fun d => hexDigit d == c

/-- A field in the text of a line. -/
def field (s : String) (nonempty : ascii s ≠ [] := by decide)
    (no_space : (ascii s).all (!isspace ·) = true := by decide)
    (length_lt : (ascii s).length < 12 := by decide) : Maps.Field where
  bytes := ascii s
  nonempty := nonempty
  no_space := fun c hc => (Bool.not_eq_true' _).mp (List.all_eq_true.mp no_space c hc)
  length_lt := length_lt

/-- A pathname in the text of a line. -/
def pathname (s : String) (nonempty : ascii s ≠ [] := by decide)
    (no_newline : 0x0a ∉ ascii s := by decide)
    (starts : (ascii s).head?.all (!isspace ·) = true := by decide)
    (length_lt : (ascii s).length < 4096 := by decide) : Maps.Pathname where
  bytes := ascii s
  nonempty := nonempty
  no_newline := no_newline
  starts := fun c hc => (Bool.not_eq_true' _).mp ((Option.all_eq_true _ _).mp starts c hc)
  length_lt := length_lt

/-- The linker's file, deleted behind its mapping. -/
def deletedLinker : Line where
  beginDigits := digits "1000"
  endDigits := digits "2000"
  perms := field "r-xp"
  offsetDigits := digits "0"
  dev := field "fd:00"
  inodeDigits := [Fin.last 9]
  gap := 0
  pathname := some (pathname "/linker64 (deleted)")
  begin_digits := by decide
  end_digits := by decide
  offset_digits := by decide
  inode_digits := by decide
  begin_length := by decide
  end_length := by decide
  offset_length := by decide
  inode_length := by decide
  gap_le := by decide

/-- The name of the linker's file. -/
def linkerName : ModuleName := ⟨ascii "/linker64", by decide⟩

/-- The base of a deleted file is returned for the name that it had. -/
theorem deleted_found : ¬ ReturnsBase linkerName [deletedLinker] := by
  have hfits : deletedLinker.Fits := by decide
  have hword : (words deletedLinker.path)[0]? = some linkerName.bytes := by decide
  have hother : ¬ deletedLinker.Names linkerName := by decide
  have hshown : deletedLinker.shown linkerName = some 0x1000 := by
    rw [deletedLinker.shown_of_fits hfits, if_pos hword]
    decide
  rw [ReturnsBase, get_addr_text, List.findSome?_cons, hshown, base, if_neg hother]
  decide

end XposedJniTrace.GetAddr
