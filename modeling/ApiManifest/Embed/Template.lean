/-!
The texts of an embed source that do not depend on the embedded files. A Go source is a package with
a loader over a map; a Rust source is a module with a loader over a static table.
-/

set_option autoImplicit false

namespace ApiManifest.Embed

/-- Lines with a line feed between one and the next. -/
def joinLines (lines : List String) : String := "\n".intercalate lines

/-- What a Go source has before the name of its package. -/
def goPreamble : String := joinLines [
  "// Code generated by oapi_index_gen. DO NOT EDIT.",
  "",
  "//go:build embed",
  "",
  "//nolint",
  "",
  "package "]

/-- What a Go source has between the name of its package and the first line of its map. -/
def goScaffolding : String := joinLines [
  "",
  "",
  "import (",
  "\t\"os\"",
  "\t\"syscall\"",
  "\t\"magalu.cloud/core/dataloader\"",
  ")",
  "",
  "type embedLoader map[string][]byte",
  "",
  "func GetEmbedLoader() dataloader.Loader \x7b",
  "\treturn embedLoaderInstance",
  "\x7d",
  "",
  "func (f embedLoader) Load(name string) ([]byte, error) \x7b",
  "\tif data, ok := embedLoaderInstance[name]; ok \x7b",
  "\t\treturn data, nil",
  "\t\x7d",
  "\treturn nil, &os.PathError\x7bOp: \"open\", Path: name, Err: syscall.ENOENT\x7d",
  "\x7d",
  "",
  "func (f embedLoader) String() string \x7b",
  "\treturn \"embedLoader\"",
  "\x7d",
  "",
  "var embedLoaderInstance = embedLoader\x7b",
  ""]

/-- What a Rust source has before the first line of its table. -/
def rustScaffolding : String := joinLines [
  "// Code generated by oapi_index_gen. DO NOT EDIT.",
  "//",
  "// Compile behind the host's \x60embed\x60 feature, e.g.",
  "// \x60#[cfg(feature = \"embed\")] mod embedded_openapi;\x60",
  "",
  "/// Loader over the embedded documents.",
  "#[derive(Debug, Clone, Copy, Default)]",
  "pub struct EmbedLoader;",
  "",
  "/// Returns the embedded document loader.",
  "pub fn embed_loader() -> EmbedLoader \x7b",
  "    EmbedLoader",
  "\x7d",
  "",
  "impl EmbedLoader \x7b",
  "    /// Returns the bytes embedded under \x60name\x60.",
  "    pub fn load(&self, name: &str) -> ::std::io::Result<&'static [u8]> \x7b",
  "        EMBEDDED_FILES",
  "            .iter()",
  "            .find(|(key, _)| *key == name)",
  "            .map(|(_, data)| *data)",
  "            .ok_or_else(|| \x7b",
  "                ::std::io::Error::new(",
  "                    ::std::io::ErrorKind::NotFound,",
  "                    format!(\"open \x7bname\x7d: no such file or directory\"),",
  "                )",
  "            \x7d)",
  "    \x7d",
  "",
  "    /// Every embedded \x60(name, bytes)\x60 pair, manifest first.",
  "    pub fn entries(&self) -> &'static [(&'static str, &'static [u8])] \x7b",
  "        EMBEDDED_FILES",
  "    \x7d",
  "\x7d",
  "",
  "impl ::std::fmt::Display for EmbedLoader \x7b",
  "    fn fmt(&self, f: &mut ::std::fmt::Formatter<'_>) -> ::std::fmt::Result \x7b",
  "        f.write_str(\"embedLoader\")",
  "    \x7d",
  "\x7d",
  "",
  "#[rustfmt::skip]",
  "#[allow(clippy::all)]",
  "pub static EMBEDDED_FILES: &[(&str, &[u8])] = &[",
  ""]

end ApiManifest.Embed
