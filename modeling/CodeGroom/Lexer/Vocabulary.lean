import CodeGroom.Text.Symbol

/-!
# Words of C and C++

The words with a meaning of their own, and the names of the types that the standard libraries define.
-/

namespace CodeGroom.Vocabulary

/-- Keywords of both languages. -/
def keywords : List String :=
  ["asm", "auto", "break", "const", "constexpr", "continue", "countof", "default", "defer", "do", "else", "enum", "extern",
    "for", "goto", "if", "register", "restricted", "return", "sizeof", "struct", "static", "switch", "typedef", "typeof",
    "typeof_unqual", "volatile", "while", "union", "thread_local", "alignas", "alignof", "static_assert", "_Pragma", "fortran"]

/-- Words reserved by compilers for both languages. -/
def reserved : List String := ["inline", "_inline", "__inline", "naked", "restrict", "thread"]

/-- Words of one vendor's compilers, without their leading underscores. -/
def vendorReserved : List String :=
  ["asm", "based", "except", "stdcall", "cdecl", "fastcall", "declspec", "finally", "try", "leave", "w64", "unaligned", "raise",
    "noop", "identifier", "forceinline", "assume", "null"]

/-- Types of one vendor's compilers, without their leading underscores. -/
def vendorTypes : List String := ["int8", "int16", "int32", "int64", "wchar_t"]

/-- Types of both languages. -/
def types : List String :=
  ["bool", "int", "long", "float", "short", "double", "char", "unsigned", "signed", "void", "_BitInt", "__int128"]

/-- Constants of both languages. -/
def constants : List String := ["true", "false", "NULL", "nullptr"]

/-- Words that cannot be a label. -/
def noLabels : List String := ["public", "private", "protected", "default"]

/-- Keywords of C alone. -/
def cKeywords : List String :=
  ["_Alignas", "_Alignof", "_Noreturn", "_Countof", "_Generic", "_Thread_local", "_Static_assert", "_Imaginary", "noreturn",
    "imaginary", "complex"]

/-- Types of C alone. -/
def cTypes : List String := ["_Bool", "_Complex", "_Atomic", "_Decimal32", "_Decimal64", "_Decimal128"]

/-- Keywords of C++ alone. -/
def cppKeywords : List String :=
  ["catch", "const_cast", "delete", "dynamic_cast", "explicit", "export", "friend", "mutable", "new", "operator", "private",
    "protected", "public", "reinterpret_cast", "class", "__restrict", "static_cast", "template", "this", "throw", "throws", "try",
    "typeid", "using", "virtual", "concept", "decltype", "noexcept", "override", "final", "constinit", "consteval", "co_await",
    "co_return", "co_yield", "requires", "import", "module", "typename", "and", "and_eq", "bitand", "bitor", "compl", "not",
    "not_eq", "or", "or_eq", "xor", "xor_eq", "contract_assert", "pre", "post"]

/-- Types of C++ alone. -/
def cppTypes : List String := ["char16_t", "char32_t", "char8_t"]

/-- Types of the C standard library. -/
def libraryTypes : List String :=
  ["size_t", "ssize_t", "off_t", "wchar_t", "ptrdiff_t", "sig_atomic_t", "fpos_t", "clock_t", "time_t", "va_list", "jmp_buf",
    "FILE", "DIR", "div_t", "ldiv_t", "mbstate_t", "wctrans_t", "wint_t", "wctype_t", "byte"]

/-- Integer types of a given width. -/
def widthTypes : List String :=
  ["int8_t", "int16_t", "int32_t", "int64_t", "uint8_t", "uint16_t", "uint32_t", "uint64_t", "int_least8_t", "int_least16_t",
    "int_least32_t", "int_least64_t", "uint_least8_t", "uint_least16_t", "uint_least32_t", "uint_least64_t", "int_fast8_t",
    "int_fast16_t", "int_fast32_t", "int_fast64_t", "uint_fast8_t", "uint_fast16_t", "uint_fast32_t", "uint_fast64_t", "intptr_t",
    "uintptr_t", "intmax_t", "uintmax_t"]

/-- Types of system interfaces. -/
def systemTypes : List String :=
  ["clockid_t", "cpu_set_t", "cpumask_t", "dev_t", "gid_t", "id_t", "ino_t", "key_t", "mode_t", "nfds_t", "pid_t", "rlim_t",
    "sig_t", "sighandler_t", "siginfo_t", "sigset_t", "sigval_t", "socklen_t", "timer_t", "uid_t"]

/-- Types for atomic access. -/
def atomicTypes : List String :=
  ["atomic_bool", "atomic_char", "atomic_schar", "atomic_uchar", "atomic_short", "atomic_ushort", "atomic_int", "atomic_uint",
    "atomic_long", "atomic_ulong", "atomic_llong", "atomic_ullong", "atomic_char16_t", "atomic_char32_t", "atomic_wchar_t",
    "atomic_int_least8_t", "atomic_uint_least8_t", "atomic_int_least16_t", "atomic_uint_least16_t", "atomic_int_least32_t",
    "atomic_uint_least32_t", "atomic_int_least64_t", "atomic_uint_least64_t", "atomic_int_fast8_t", "atomic_uint_fast8_t",
    "atomic_int_fast16_t", "atomic_uint_fast16_t", "atomic_int_fast32_t", "atomic_uint_fast32_t", "atomic_int_fast64_t",
    "atomic_uint_fast64_t", "atomic_intptr_t", "atomic_uintptr_t", "atomic_size_t", "atomic_ptrdiff_t", "atomic_intmax_t",
    "atomic_uintmax_t"]

/-- The names that stand for types. -/
def typeNames : List Text := (libraryTypes ++ widthTypes ++ systemTypes ++ atomicTypes).map Text.ofString

end CodeGroom.Vocabulary
