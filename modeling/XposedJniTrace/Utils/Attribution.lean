import XposedJniTrace.Linker.ModuleBase
import XposedJniTrace.Utils.AppUtils

/-!
# The mapping of an address

What `getSymbolforAddress` is to answer over the maps of a process as the kernel writes them: the
pathname of the mapping that has the address. The name that a line leaves in `mapname` stays there
for the lines without one, a name is cut at its first white space, and the end of a mapping counts
as inside; the answer is right where none of this comes to bear.
-/

namespace XposedJniTrace.AppUtils

open Maps (fgets isspace hexDigit decDigit digitsValue scanHex Field Pathname Line)

/-- A mapping, as the kernel writes its line, with addresses of so many bits. -/
structure Mapping (bits : ℕ) extends Line where
  begin_lt_end : digitsValue beginDigits < digitsValue endDigits
  end_lt : digitsValue endDigits < 2 ^ bits

namespace Mapping

variable {bits : ℕ} (m : Mapping bits)

/-- The mapping has the address. -/
def Contains (address : ℕ) : Prop := m.begin ≤ address ∧ address < m.endAddr

/-- The code takes the mapping for one that has the address. -/
def Takes (address : ℕ) : Prop := m.begin ≤ address ∧ address ≤ m.endAddr

end Mapping

section Model

variable {bits : ℕ}

/-- The text of the maps. -/
def text (maps : List (Mapping bits)) : List UInt8 := maps.flatMap fun m => m.bytes

/-- The mappings are apart and in increasing order. -/
def WellFormed (maps : List (Mapping bits)) : Prop :=
  maps.Pairwise fun first second => first.endAddr ≤ second.begin

/-- What is answered for an address: the pathname of the mapping that has it, nothing when that has
none or there is no such mapping. -/
def Attributed (maps : List (Mapping bits)) (address : ℕ) (answer : List UInt8) : Prop :=
  (∃ m ∈ maps, m.Contains address ∧ answer = m.path) ∨
    (∀ m ∈ maps, ¬ m.Contains address) ∧ answer = []

/-- No mapping has a pathname. -/
def Unnamed (maps : List (Mapping bits)) : Prop := ∀ m ∈ maps, m.pathname = none

/-- The last mapping that has a pathname has this one. -/
def LastNamed (maps : List (Mapping bits)) (p : Pathname) : Prop :=
  ∃ front m back, maps = front ++ m :: back ∧ m.pathname = some p ∧ Unnamed back

/-- The first mapping that the code takes for the one with the address. -/
structure FirstTaken (maps front : List (Mapping bits)) (m : Mapping bits)
    (back : List (Mapping bits)) (address : ℕ) : Prop where
  split : maps = front ++ m :: back
  here : m.Takes address
  earlier : ∀ e ∈ front, ¬ e.Takes address

/-- The maps from which the address is attributed rightly. -/
inductive RightlyTaken (maps : List (Mapping bits)) (address : ℕ) : Prop where
  /-- No mapping is taken. -/
  | outside (none : ∀ m ∈ maps, ¬ m.Takes address)
  /-- A mapping is taken that has the address, with a pathname without white space, or without one
  and behind no other that has one. -/
  | inside {front : List (Mapping bits)} {m : Mapping bits} {back : List (Mapping bits)}
      (taken : FirstTaken maps front m back address) (has : address < m.endAddr)
      (named : ∀ p, m.pathname = some p → p.firstWord = p.bytes)
      (unnamed : m.pathname = none → Unnamed front)
  /-- A mapping is taken that ends at the address, no pathname has been seen, and none is due. -/
  | behind {front : List (Mapping bits)} {m : Mapping bits} {back : List (Mapping bits)}
      (taken : FirstTaken maps front m back address) (ends : address = m.endAddr)
      (unnamed : Unnamed (front ++ [m]))
      (next : ∀ n ∈ back.head?, n.begin = address → n.pathname = none)
  /-- A mapping is taken that ends at the address, and the last pathname that was seen happens to
  be that of the mapping that begins there. -/
  | sameName {front : List (Mapping bits)} {m next : Mapping bits} {back : List (Mapping bits)}
      {p q : Pathname} (taken : FirstTaken maps front m (next :: back) address)
      (ends : address = m.endAddr) (begins : next.begin = address) (due : next.pathname = some p)
      (seen : LastNamed (front ++ [m]) q) (same : q.firstWord = p.bytes)

end Model

section Scan

/-- A decimal digit is a digit. -/
theorem isdigit_decDigit : ∀ d : Fin 10, isdigit (decDigit d) = true := by decide

/-- White space in front of a number is skipped. -/
theorem scanHex_blank (bits : ℕ) (text : List UInt8) :
    scanHex bits (0x20 :: text) = scanHex bits text := by
  have hskip : (0x20 :: text).dropWhile isspace = text.dropWhile isspace :=
    List.dropWhile_cons_of_pos rfl
  rw [scanHex, scanHex, hskip]

/-- Blanks in front of a word are skipped. -/
theorem dropWhile_blanks (n : ℕ) (text : List UInt8) :
    (List.replicate n 0x20 ++ text).dropWhile isspace = text.dropWhile isspace := by
  induction n with
  | zero => rfl
  | succ n ih =>
    rw [List.replicate_succ, List.cons_append]
    exact (List.dropWhile_cons_of_pos rfl).trans ih

/-- `%s` reads the bytes up to the first white space. -/
theorem scanString_of_dropWhile {text : List UInt8} {c : UInt8} {rest : List UInt8}
    (htext : text.dropWhile isspace = c :: rest) (hc : isspace c = false) :
    scanString text =
      some ((c :: rest).takeWhile (!isspace ·), (c :: rest).dropWhile (!isspace ·)) := by
  have hword : (c :: rest).takeWhile (!isspace ·) = c :: rest.takeWhile (!isspace ·) :=
    List.takeWhile_cons_of_pos (by rw [hc]; rfl)
  rw [scanString, htext, hword]

/-- `%s` reads a field behind a blank. -/
theorem scanString_field (field : Field) (text : List UInt8) :
    scanString (0x20 :: (field.bytes ++ 0x20 :: text)) = some (field.bytes, 0x20 :: text) := by
  have hspace : ∀ c ∈ field.bytes, (!isspace c) = true :=
    fun c hc => by rw [field.no_space c hc]; rfl
  have htake : (field.bytes ++ 0x20 :: text).takeWhile (!isspace ·) = field.bytes := by
    rw [List.takeWhile_append_of_pos hspace]
    exact List.append_nil _
  have hdrop : (field.bytes ++ 0x20 :: text).dropWhile (!isspace ·) = 0x20 :: text :=
    List.dropWhile_append_of_pos hspace
  cases hbytes : field.bytes with
  | nil => exact absurd hbytes field.nonempty
  | cons c rest =>
    have hc : isspace c = false := field.no_space c (hbytes ▸ List.mem_cons_self)
    rw [hbytes] at htake hdrop
    have hskip : (0x20 :: (c :: rest ++ 0x20 :: text)).dropWhile isspace =
        c :: (rest ++ 0x20 :: text) :=
      (List.dropWhile_cons_of_pos rfl).trans (List.dropWhile_cons_of_neg (by rw [hc]; decide))
    rw [scanString_of_dropWhile hskip hc]
    exact congrArg some (Prod.ext htake hdrop)

/-- `%ld` reads a number behind a blank. -/
theorem scanDec_digits {digits : List (Fin 10)} (hdigits : digits ≠ []) (text : List UInt8) :
    scanDec (0x20 :: (digits.map decDigit ++ 0x20 :: text)) = some (0x20 :: text) := by
  cases digits with
  | nil => exact absurd rfl hdigits
  | cons d digits =>
    have hskip : (0x20 :: ((d :: digits).map decDigit ++ 0x20 :: text)).dropWhile isspace =
        decDigit d :: (digits.map decDigit ++ 0x20 :: text) :=
      (List.dropWhile_cons_of_pos rfl).trans
        (List.dropWhile_cons_of_neg (by rw [Maps.isspace_decDigit]; decide))
    have hdigits : ∀ c ∈ digits.map decDigit, isdigit c = true := by
      intro c hc
      obtain ⟨e, -, rfl⟩ := List.mem_map.mp hc
      exact isdigit_decDigit e
    rw [scanDec, hskip]
    change (if isdigit (decDigit d) then _ else _) = _
    rw [if_pos (isdigit_decDigit d), List.dropWhile_append_of_pos hdigits]
    rfl

/-- `%s` reads the first word of a pathname at the end of a line. -/
theorem scanString_path (p : Pathname) (gap : ℕ) :
    (scanString (0x20 :: (List.replicate gap 0x20 ++ p.bytes ++ [0x0a]))).map Prod.fst =
      some p.firstWord := by
  have hfirst : (p.bytes ++ [0x0a]).takeWhile (!isspace ·) = p.firstWord := by
    rw [Pathname.firstWord, List.takeWhile_append]
    split_ifs with hall
    · rw [List.takeWhile_cons_of_neg (by decide), List.append_nil]
      exact ((List.takeWhile_prefix _).eq_of_length hall).symm
    · rfl
  cases hbytes : p.bytes with
  | nil => exact absurd hbytes p.nonempty
  | cons c rest =>
    have hc : isspace c = false := p.starts c (by rw [hbytes]; rfl)
    have hskip : (0x20 :: (List.replicate gap 0x20 ++ (c :: rest) ++ [0x0a])).dropWhile isspace =
        c :: (rest ++ [0x0a]) := by
      rw [List.append_assoc]
      refine (List.dropWhile_cons_of_pos rfl).trans ((dropWhile_blanks gap _).trans ?_)
      exact List.dropWhile_cons_of_neg (by rw [hc]; decide)
    rw [hbytes] at hfirst
    rw [scanString_of_dropWhile hskip hc]
    exact congrArg some hfirst

/-- `%s` reads nothing at the end of a line without a pathname. -/
theorem scanString_newline (gap : ℕ) :
    scanString (0x20 :: (List.replicate gap 0x20 ++ [0x0a])) = none := by
  have hskip : (0x20 :: (List.replicate gap 0x20 ++ [0x0a])).dropWhile isspace = [] :=
    (List.dropWhile_cons_of_pos rfl).trans (dropWhile_blanks gap _)
  rw [scanString, hskip]
  rfl

/-- The name that the line of a mapping leaves in `mapname`. -/
def Mapping.name {bits : ℕ} (m : Mapping bits) (mapname : List UInt8) : List UInt8 :=
  (m.pathname.map Pathname.firstWord).getD mapname

/-- The line of a mapping assigns its bounds, and its name if it has one. -/
theorem sscanf_line {bits : ℕ} (m : Mapping bits) (vars : Vars) :
    sscanf bits m.bytes vars = ⟨m.begin, m.endAddr, m.name vars.mapname⟩ := by
  have hbegin : digitsValue m.beginDigits < 2 ^ bits := m.begin_lt_end.trans m.end_lt
  have hfields (rest : List UInt8) :
      ((scanString (0x20 :: (m.perms.bytes ++ 0x20 :: (m.offsetDigits.map hexDigit ++ 0x20 ::
        (m.dev.bytes ++ 0x20 :: (m.inodeDigits.map decDigit ++ 0x20 :: rest)))))).bind fun perm =>
      (scanHex bits perm.2).bind fun foo => (scanString foo.2).bind fun dev => scanDec dev.2) =
        some (0x20 :: rest) := by
    rw [scanString_field, Option.bind_some, scanHex_blank,
      Maps.scanHex_digits m.offset_digits (by decide), Option.bind_some, scanString_field,
      Option.bind_some]
    exact scanDec_digits m.inode_digits rest
  rw [sscanf, Line.bytes, Line.body, Line.header, Maps.Bounds.text]
  simp only [List.append_assoc, List.cons_append]
  rw [Maps.scanHex_map m.begin_digits hbegin (by decide)]
  simp only
  rw [Maps.scanHex_map m.end_digits m.end_lt (by decide)]
  simp only [hfields]
  cases hpath : m.pathname with
  | none =>
    have hempty : m.path = [] := by rw [Line.path, hpath]; rfl
    rw [hempty, List.nil_append, scanString_newline, Mapping.name, hpath]
    rfl
  | some p =>
    have hbytes : m.path = p.bytes := by rw [Line.path, hpath]; rfl
    obtain ⟨⟨name, rest⟩, hscan, hname⟩ := Option.map_eq_some_iff.mp (scanString_path p m.gap)
    rw [List.append_assoc] at hscan
    rw [hbytes, hscan, Mapping.name, hpath]
    change (⟨m.begin, m.endAddr, name⟩ : Vars) = ⟨m.begin, m.endAddr, p.firstWord⟩
    rw [← hname]

end Scan

section Search

variable {bits : ℕ} {maps front back : List (Mapping bits)} {m : Mapping bits} {address : ℕ}

instance (m : Mapping bits) (address : ℕ) : Decidable (m.Takes address) :=
  inferInstanceAs (Decidable (_ ∧ _))

/-- The loop over the lines of some mappings. -/
def taken (address : ℕ) : List (Mapping bits) → List UInt8 → List UInt8
  | [], _ => []
  | m :: maps, mapname =>
    if m.Takes address then m.name mapname else taken address maps (m.name mapname)

/-- What `mapname` holds behind the lines of some mappings. -/
def names (maps : List (Mapping bits)) : List UInt8 :=
  maps.foldl (fun mapname m => m.name mapname) []

/-- Over the lines of some mappings the search takes the first mapping that passes its test. -/
theorem search_text (maps : List (Mapping bits)) (address : ℕ) (vars : Vars) :
    search bits address (text maps) vars = taken address maps vars.mapname := by
  induction maps generalizing vars with
  | nil =>
    rw [search]
    rfl
  | cons m maps ih =>
    have htext : text (m :: maps) = m.body ++ 0x0a :: text maps := by
      rw [text, List.flatMap_cons, Line.bytes, List.append_assoc]
      rfl
    have hne : text (m :: maps) ≠ [] := by
      rw [htext]
      exact List.append_ne_nil_of_right_ne_nil _ (List.cons_ne_nil _ _)
    have hlength : m.body.length < (text (m :: maps)).length + 1 := by
      rw [htext, List.length_append]
      omega
    have hline : fgets ((text (m :: maps)).length + 1) (text (m :: maps)) =
        (m.bytes, text maps) := by
      conv_lhs => rw [htext]
      rw [htext] at hlength
      exact Maps.fgets_line m.newline_notMem_body hlength _
    rw [search, dif_neg hne, hline, sscanf_line, taken]
    simp only [ge_iff_le]
    split_ifs with hhere htakes htakes
    · rfl
    · exact absurd hhere htakes
    · exact absurd htakes hhere
    · exact ih _

/-- Where no mapping passes the test, nothing is answered. -/
theorem taken_of_none (h : ∀ m ∈ maps, ¬ m.Takes address) (mapname : List UInt8) :
    taken address maps mapname = [] := by
  induction maps generalizing mapname with
  | nil => rfl
  | cons m maps ih =>
    rw [taken, if_neg (h m List.mem_cons_self)]
    exact ih (fun e he => h e (List.mem_cons_of_mem m he)) _

/-- The first mapping that is taken is answered with what `mapname` holds behind its line. -/
theorem taken_of_first (hhere : m.Takes address) (hearlier : ∀ e ∈ front, ¬ e.Takes address)
    (mapname : List UInt8) :
    taken address (front ++ m :: back) mapname =
      (front ++ [m]).foldl (fun mapname m => m.name mapname) mapname := by
  induction front generalizing mapname with
  | nil =>
    rw [List.nil_append, taken, if_pos hhere]
    rfl
  | cons e front ih =>
    rw [List.cons_append, taken, if_neg (hearlier e List.mem_cons_self)]
    exact ih (fun e' he' => hearlier e' (List.mem_cons_of_mem e he')) _

/-- The answer is the name that the lines up to the first mapping taken have left. -/
theorem FirstTaken.answer (h : FirstTaken maps front m back address) (haddress : address ≠ 0)
    (uninit : ℕ × ℕ) :
    getSymbolforAddress bits uninit (text maps) address = names (front ++ [m]) := by
  rw [getSymbolforAddress, if_neg haddress, search_text, h.split]
  exact taken_of_first h.here h.earlier []

/-- Some mapping is the first that is taken, when one is. -/
theorem exists_firstTaken (h : ∃ m ∈ maps, m.Takes address) :
    ∃ front m back, FirstTaken maps front m back address := by
  induction maps with
  | nil =>
    obtain ⟨m, hm, -⟩ := h
    cases hm
  | cons e maps ih =>
    by_cases htakes : e.Takes address
    · exact ⟨[], e, maps, rfl, htakes, fun e' he' => absurd he' List.not_mem_nil⟩
    · obtain ⟨m, hm, hhere⟩ := h
      have hlater : m ∈ maps := by
        rcases List.mem_cons.mp hm with rfl | hlater
        · exact absurd hhere htakes
        · exact hlater
      obtain ⟨front, m, back, hsplit, hhere, hearlier⟩ := ih ⟨m, hlater, hhere⟩
      refine ⟨e :: front, m, back, by rw [hsplit, List.cons_append], hhere, ?_⟩
      intro e' he'
      rcases List.mem_cons.mp he' with rfl | hfront
      · exact htakes
      · exact hearlier e' hfront

end Search

section Names

variable {bits : ℕ} {maps : List (Mapping bits)}

/-- A line behind the others leaves its name, or theirs. -/
theorem names_concat (maps : List (Mapping bits)) (m : Mapping bits) :
    names (maps ++ [m]) = m.name (names maps) := by
  rw [names, List.foldl_append]
  rfl

/-- One mapping more leaves no name when it has none either. -/
theorem unnamed_concat_iff {m : Mapping bits} :
    Unnamed (maps ++ [m]) ↔ Unnamed maps ∧ m.pathname = none := by
  rw [Unnamed, Unnamed, List.forall_mem_append, List.forall_mem_singleton]

/-- No name is left exactly by mappings without pathnames. -/
theorem names_eq_nil_iff : names maps = [] ↔ Unnamed maps := by
  induction maps using List.reverseRecOn with
  | nil => exact iff_of_true rfl fun m hm => absurd hm List.not_mem_nil
  | append_singleton maps m ih =>
    rw [names_concat, unnamed_concat_iff, Mapping.name]
    cases m.pathname with
    | none => exact ih.trans (and_iff_left rfl).symm
    | some p => exact iff_of_false p.firstWord_ne_nil fun h => by cases h.2

/-- The last name is that of the last mapping, or the last one in front of it where it has none. -/
theorem lastNamed_concat_iff {m : Mapping bits} {q : Pathname} :
    LastNamed (maps ++ [m]) q ↔ m.pathname = some q ∨ m.pathname = none ∧ LastNamed maps q := by
  constructor
  · intro h
    obtain ⟨front, e, back, hsplit, he, hback⟩ := h
    rcases List.eq_nil_or_concat' back with rfl | ⟨back, last, rfl⟩
    · obtain rfl : m = e := by simpa using (List.append_inj' hsplit rfl).2
      exact .inl he
    · rw [← List.cons_append, ← List.append_assoc] at hsplit
      obtain ⟨hmaps, hlast⟩ := List.append_inj' hsplit rfl
      obtain rfl : m = last := by simpa using hlast
      obtain ⟨hback, hnone⟩ := unnamed_concat_iff.mp hback
      exact .inr ⟨hnone, front, e, back, hmaps, he, hback⟩
  · intro h
    rcases h with hnamed | ⟨hnone, front, e, back, hsplit, he, hback⟩
    · exact ⟨maps, m, [], rfl, hnamed, fun e he => absurd he List.not_mem_nil⟩
    · refine ⟨front, e, back ++ [m], ?_, he, unnamed_concat_iff.mpr ⟨hback, hnone⟩⟩
      rw [hsplit, List.append_assoc, List.cons_append]

/-- A name that is left is the first word of the last pathname. -/
theorem names_eq_iff {word : List UInt8} (hword : word ≠ []) :
    names maps = word ↔ ∃ q, LastNamed maps q ∧ q.firstWord = word := by
  induction maps using List.reverseRecOn with
  | nil =>
    refine iff_of_false hword.symm ?_
    intro h
    obtain ⟨q, ⟨front, m, back, hsplit, -⟩, -⟩ := h
    simp at hsplit
  | append_singleton maps m ih =>
    simp only [names_concat, Mapping.name, lastNamed_concat_iff]
    cases m.pathname with
    | none => simpa using ih
    | some p =>
      change p.firstWord = word ↔ _
      constructor
      · intro h
        exact ⟨p, .inl rfl, h⟩
      · intro h
        obtain ⟨q, hq, hfirst⟩ := h
        rcases hq with hsame | ⟨hnone, -⟩
        · rw [Option.some.inj hsame]
          exact hfirst
        · cases hnone

end Names

section Attribution

variable {bits : ℕ} {maps front back : List (Mapping bits)} {m : Mapping bits} {address : ℕ}
  {answer : List UInt8}

/-- The mappings that have an address have one pathname. -/
theorem path_eq_of_contains (hmaps : WellFormed maps) {e : Mapping bits} (hm : m ∈ maps)
    (he : e ∈ maps)
    (hmContains : m.Contains address) (heContains : e.Contains address) : m.path = e.path := by
  let Same (m e : Mapping bits) : Prop := m.Contains address → e.Contains address → m.path = e.path
  have hapart {first second : Mapping bits} (hle : first.endAddr ≤ second.begin)
      (hfirst : first.Contains address) (hsecond : second.Contains address) : False := by
    have hlt := hfirst.2
    have hge := hsecond.1
    omega
  have hsame : maps.Pairwise Same :=
    hmaps.imp fun hle hfirst hsecond => (hapart hle hfirst hsecond).elim
  have hflip : maps.Pairwise (flip Same) :=
    hmaps.imp fun hle hsecond hfirst => (hapart hle hfirst hsecond).elim
  exact List.Pairwise.forall_of_forall_of_flip (fun _ _ _ _ => rfl) hsame hflip hm he hmContains
    heContains

/-- What is due for the address of a mapping is its pathname. -/
theorem attributed_iff_of_contains (hmaps : WellFormed maps) (hm : m ∈ maps)
    (hcontains : m.Contains address) : Attributed maps address answer ↔ answer = m.path := by
  constructor
  · intro h
    rcases h with ⟨e, he, hother, hanswer⟩ | ⟨hnone, -⟩
    · rw [hanswer, path_eq_of_contains hmaps he hm hother hcontains]
    · exact absurd hcontains (hnone m hm)
  · intro h
    exact .inl ⟨m, hm, hcontains, h⟩

/-- What is due for an address in no mapping is nothing. -/
theorem attributed_iff_of_none (hnone : ∀ m ∈ maps, ¬ m.Contains address) :
    Attributed maps address answer ↔ answer = [] := by
  constructor
  · intro h
    rcases h with ⟨m, hm, hcontains, -⟩ | ⟨-, hanswer⟩
    · exact absurd hcontains (hnone m hm)
    · exact hanswer
  · intro h
    exact .inr ⟨hnone, h⟩

/-- Behind the mapping that ends at an address, only the next one can have it. -/
theorem begin_of_contains (hmaps : WellFormed maps) (h : FirstTaken maps front m back address)
    (hends : address = m.endAddr) {e : Mapping bits} (he : e ∈ maps)
    (hcontains : e.Contains address) :
    ∃ later, back = e :: later ∧ e.begin = address := by
  rw [WellFormed, h.split] at hmaps
  obtain ⟨-, hback, -⟩ := List.pairwise_append.mp hmaps
  obtain ⟨hfirst, hlater⟩ := List.pairwise_cons.mp hback
  rw [h.split] at he
  rcases List.mem_append.mp he with hfront | hrest
  · exact absurd ⟨hcontains.1, Nat.le_of_lt hcontains.2⟩ (h.earlier e hfront)
  · rcases List.mem_cons.mp hrest with rfl | hbehind
    · exact absurd hcontains.2 (by omega)
    · cases hlist : back with
      | nil =>
        rw [hlist] at hbehind
        cases hbehind
      | cons next later =>
        rw [hlist] at hbehind hfirst hlater
        have hbegin := hcontains.1
        rcases List.mem_cons.mp hbehind with rfl | hlast
        · have hle := hfirst e List.mem_cons_self
          exact ⟨later, rfl, by omega⟩
        · have hle := hfirst next List.mem_cons_self
          have hnext : next.begin < next.endAddr := next.begin_lt_end
          have hapart := (List.pairwise_cons.mp hlater).1 e hlast
          omega

/-- The pathname of a mapping that has one. -/
theorem path_of_some {p : Pathname} (h : m.pathname = some p) : m.path = p.bytes := by
  rw [Line.path, h]
  rfl

/-- A mapping without a pathname has the empty one. -/
theorem path_of_none (h : m.pathname = none) : m.path = [] := by
  rw [Line.path, h]
  rfl

/-- The mapping that is taken has the address: its name is right when it is one word, or when there
is none. -/
theorem names_eq_path_iff :
    names (front ++ [m]) = m.path ↔
      (∀ p, m.pathname = some p → p.firstWord = p.bytes) ∧ (m.pathname = none → Unnamed front) := by
  rw [names_concat, Mapping.name]
  cases hpath : m.pathname with
  | none =>
    rw [path_of_none hpath]
    simpa using names_eq_nil_iff
  | some p =>
    rw [path_of_some hpath]
    simp

/-- One mapping is the first that is taken. -/
theorem FirstTaken.unique {front' back' : List (Mapping bits)} {m' : Mapping bits}
    (h : FirstTaken maps front m back address) (h' : FirstTaken maps front' m' back' address) :
    front = front' ∧ m = m' ∧ back = back' := by
  have hsplit := h.split.symm.trans h'.split
  rcases List.append_eq_append_iff.mp hsplit with ⟨more, hfront, hrest⟩ | ⟨more, hfront, hrest⟩
  · cases more with
    | nil =>
      obtain ⟨hm, hback⟩ := List.cons.inj hrest
      exact ⟨by rw [hfront, List.append_nil], hm, hback⟩
    | cons e more =>
      obtain ⟨rfl, -⟩ := List.cons.inj hrest
      refine absurd h.here (h'.earlier m ?_)
      rw [hfront]
      exact List.mem_append_right _ List.mem_cons_self
  · cases more with
    | nil =>
      obtain ⟨hm, hback⟩ := List.cons.inj hrest
      exact ⟨by rw [hfront, List.append_nil], hm.symm, hback.symm⟩
    | cons e more =>
      obtain ⟨rfl, -⟩ := List.cons.inj hrest
      refine absurd h'.here (h.earlier m' ?_)
      rw [hfront]
      exact List.mem_append_right _ List.mem_cons_self

/-- Inside the mapping that is taken, the name is right when it is one word, and when none is
missing or none came before. -/
theorem rightlyTaken_iff_of_inside (h : FirstTaken maps front m back address)
    (hlt : address < m.endAddr) :
    RightlyTaken maps address ↔
      (∀ p, m.pathname = some p → p.firstWord = p.bytes) ∧ (m.pathname = none → Unnamed front) := by
  have hm : m ∈ maps := h.split ▸ List.mem_append_right _ List.mem_cons_self
  constructor
  · intro hright
    cases hright with
    | outside hnone => exact absurd h.here (hnone m hm)
    | inside h' _ hnamed hunnamed =>
      obtain ⟨rfl, rfl, -⟩ := h.unique h'
      exact ⟨hnamed, hunnamed⟩
    | behind h' hends =>
      obtain ⟨-, rfl, -⟩ := h.unique h'
      omega
    | sameName h' hends =>
      obtain ⟨-, rfl, -⟩ := h.unique h'
      omega
  · intro hname
    exact .inside h hlt hname.1 hname.2

/-- At the end of the mapping that is taken, the name is right when there is none and none is due,
or when it is that of the next mapping. -/
theorem rightlyTaken_iff_of_ends (h : FirstTaken maps front m back address)
    (hends : address = m.endAddr) :
    RightlyTaken maps address ↔
      (Unnamed (front ++ [m]) ∧ ∀ n ∈ back.head?, n.begin = address → n.pathname = none) ∨
        ∃ next later p q, back = next :: later ∧ next.begin = address ∧ next.pathname = some p ∧
          LastNamed (front ++ [m]) q ∧ q.firstWord = p.bytes := by
  have hm : m ∈ maps := h.split ▸ List.mem_append_right _ List.mem_cons_self
  constructor
  · intro hright
    cases hright with
    | outside hnone => exact absurd h.here (hnone m hm)
    | inside h' hlt =>
      obtain ⟨-, rfl, -⟩ := h.unique h'
      omega
    | behind h' _ hunnamed hnext =>
      obtain ⟨rfl, rfl, rfl⟩ := h.unique h'
      exact .inl ⟨hunnamed, hnext⟩
    | sameName h' _ hbegins hdue hseen hsame =>
      obtain ⟨rfl, rfl, rfl⟩ := h.unique h'
      exact .inr ⟨_, _, _, _, rfl, hbegins, hdue, hseen, hsame⟩
  · intro hright
    rcases hright with ⟨hunnamed, hnext⟩ | ⟨next, later, p, q, rfl, hbegins, hdue, hseen, hsame⟩
    · exact .behind h hends hunnamed hnext
    · exact .sameName h hends hbegins hdue hseen hsame

/-- Behind the mapping that is taken, the pathname of the next one is due when it begins at the
address. -/
theorem FirstTaken.attributed_iff_of_next {next : Mapping bits} {later : List (Mapping bits)}
    (hmaps : WellFormed maps) (h : FirstTaken maps front m (next :: later) address)
    (hends : address = m.endAddr) (hbegin : next.begin = address) :
    Attributed maps address (names (front ++ [m])) ↔ RightlyTaken maps address := by
  have hmem : next ∈ maps := by
    rw [h.split]
    exact List.mem_append_right _ (List.mem_cons_of_mem m List.mem_cons_self)
  have hcontains : next.Contains address := ⟨Nat.le_of_eq hbegin, hbegin ▸ next.begin_lt_end⟩
  rw [rightlyTaken_iff_of_ends h hends, attributed_iff_of_contains hmaps hmem hcontains]
  cases hpath : next.pathname with
  | none =>
    rw [path_of_none hpath, names_eq_nil_iff]
    constructor
    · intro hunnamed
      refine .inl ⟨hunnamed, ?_⟩
      intro n hn _
      rwa [← Option.some.inj hn]
    · intro hright
      rcases hright with ⟨hunnamed, -⟩ | ⟨n, more, p, q, hback, -, hdue, -⟩
      · exact hunnamed
      · obtain ⟨rfl, -⟩ := List.cons.inj hback
        rw [hpath] at hdue
        cases hdue
  | some p =>
    rw [path_of_some hpath, names_eq_iff p.nonempty]
    constructor
    · intro hseen
      obtain ⟨q, hlast, hsame⟩ := hseen
      exact .inr ⟨next, later, p, q, rfl, hbegin, hpath, hlast, hsame⟩
    · intro hright
      rcases hright with ⟨-, hnone⟩ | ⟨n, more, p', q, hback, -, hdue, hseen, hsame⟩
      · have hunnamed := hnone next rfl hbegin
        rw [hpath] at hunnamed
        cases hunnamed
      · obtain ⟨rfl, -⟩ := List.cons.inj hback
        rw [hpath] at hdue
        rw [Option.some.inj hdue]
        exact ⟨q, hseen, hsame⟩

/-- Where no mapping begins at the end of the one that is taken, no name is due. -/
theorem FirstTaken.attributed_iff_of_gap (hmaps : WellFormed maps)
    (h : FirstTaken maps front m back address) (hends : address = m.endAddr)
    (hnext : ¬ ∃ next later, back = next :: later ∧ next.begin = address) :
    Attributed maps address (names (front ++ [m])) ↔ RightlyTaken maps address := by
  have hnone : ∀ e ∈ maps, ¬ e.Contains address := by
    intro e he hcontains
    obtain ⟨later, hback, hbegin⟩ := begin_of_contains hmaps h hends he hcontains
    exact hnext ⟨e, later, hback, hbegin⟩
  rw [rightlyTaken_iff_of_ends h hends, attributed_iff_of_none hnone, names_eq_nil_iff]
  constructor
  · intro hunnamed
    refine .inl ⟨hunnamed, ?_⟩
    intro n hn hbegin
    obtain ⟨later, hback⟩ := List.head?_eq_some_iff.mp hn
    exact absurd ⟨n, later, hback, hbegin⟩ hnext
  · intro hright
    rcases hright with ⟨hunnamed, -⟩ | ⟨next, later, p, q, hback, hbegin, -⟩
    · exact hunnamed
    · exact absurd ⟨next, later, hback, hbegin⟩ hnext

/-- At the end of the mapping that is taken, the answer is right under the same conditions. -/
theorem attributed_iff_of_ends (hmaps : WellFormed maps) (h : FirstTaken maps front m back address)
    (hends : address = m.endAddr) :
    Attributed maps address (names (front ++ [m])) ↔ RightlyTaken maps address := by
  by_cases hnext : ∃ next later, back = next :: later ∧ next.begin = address
  · obtain ⟨next, later, rfl, hbegin⟩ := hnext
    exact h.attributed_iff_of_next hmaps hends hbegin
  · exact h.attributed_iff_of_gap hmaps hends hnext

/-- An address is attributed to the mapping that contains it exactly when the maps are such that
what the code takes is right. -/
theorem attributed_iff (hmaps : WellFormed maps) (haddress : address ≠ 0) (uninit : ℕ × ℕ) :
    Attributed maps address (getSymbolforAddress bits uninit (text maps) address) ↔
      RightlyTaken maps address := by
  by_cases htaken : ∃ m ∈ maps, m.Takes address
  · obtain ⟨front, m, back, hfirst⟩ := exists_firstTaken htaken
    rw [hfirst.answer haddress]
    rcases Nat.lt_or_eq_of_le hfirst.here.2 with hlt | hends
    · have hm : m ∈ maps := hfirst.split ▸ List.mem_append_right _ List.mem_cons_self
      rw [attributed_iff_of_contains hmaps hm ⟨hfirst.here.1, hlt⟩, names_eq_path_iff,
        rightlyTaken_iff_of_inside hfirst hlt]
    · exact attributed_iff_of_ends hmaps hfirst hends
  · have hnone : ∀ m ∈ maps, ¬ m.Takes address := fun m hm htakes => htaken ⟨m, hm, htakes⟩
    have hcontains : ∀ m ∈ maps, ¬ m.Contains address := fun m hm hcontains =>
      hnone m hm ⟨hcontains.1, Nat.le_of_lt hcontains.2⟩
    rw [getSymbolforAddress, if_neg haddress, search_text, taken_of_none hnone,
      attributed_iff_of_none hcontains]
    exact iff_of_true rfl (.outside hnone)

end Attribution

/-- One page of a library. -/
def libraryPage : Mapping 64 where
  beginDigits := GetAddr.digits "00001000"
  endDigits := GetAddr.digits "00002000"
  perms := GetAddr.field "rwxp"
  offsetDigits := GetAddr.digits "00000000"
  dev := GetAddr.field "fd:01"
  inodeDigits := [7]
  gap := 0
  pathname := some (GetAddr.pathname "/libc.so")
  begin_digits := by decide
  end_digits := by decide
  offset_digits := by decide
  inode_digits := by decide
  begin_lt_end := by decide
  end_lt := by decide

/-- One page of memory that belongs to no file. -/
def anonymousPage : Mapping 64 where
  beginDigits := GetAddr.digits "00005000"
  endDigits := GetAddr.digits "00006000"
  perms := GetAddr.field "rw-p"
  offsetDigits := GetAddr.digits "00000000"
  dev := GetAddr.field "00:00"
  inodeDigits := [0]
  gap := 0
  pathname := none
  begin_digits := by decide
  end_digits := by decide
  offset_digits := by decide
  inode_digits := by decide
  begin_lt_end := by decide
  end_lt := by decide

/-- The two pages lie in order. -/
theorem wellFormed_pages : WellFormed [libraryPage, anonymousPage] := by
  refine List.pairwise_pair.mpr ?_
  decide

/-- An address of the library is attributed to it. -/
theorem attributed_library :
    Attributed [libraryPage, anonymousPage] 0x1800
      (getSymbolforAddress 64 (0, 0) (text [libraryPage, anonymousPage]) 0x1800) := by
  have htaken : FirstTaken [libraryPage, anonymousPage] [] libraryPage [anonymousPage] 0x1800 :=
    ⟨rfl, by decide, fun e he => absurd he List.not_mem_nil⟩
  refine (attributed_iff wellFormed_pages (by decide) (0, 0)).mpr ?_
  exact .inside htaken (by decide) (fun p hp => by rw [← Option.some.inj hp]; decide)
    (fun hnone => by cases hnone)

/-- An address of the memory behind it is attributed to the library, too. -/
theorem anonymous_named :
    ¬ Attributed [libraryPage, anonymousPage] 0x5800
      (getSymbolforAddress 64 (0, 0) (text [libraryPage, anonymousPage]) 0x5800) := by
  have htaken : FirstTaken [libraryPage, anonymousPage] [libraryPage] anonymousPage [] 0x5800 :=
    ⟨rfl, by decide, by decide⟩
  have hcontains : anonymousPage.Contains 0x5800 := ⟨by decide, by decide⟩
  rw [htaken.answer (by decide), attributed_iff_of_contains wellFormed_pages
    (List.mem_cons_of_mem _ List.mem_cons_self) hcontains]
  decide

end XposedJniTrace.AppUtils
