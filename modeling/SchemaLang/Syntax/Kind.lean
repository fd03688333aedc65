/-!
# Kinds of syntax nodes

Every construct of the schema language has a kind, down to the one-token
nodes around names and literals. A tag is an annotation `[T(..)]` in front of a
definition. Tokens that recovery skips are held by nodes
of kind `error`.
-/

set_option autoImplicit false

namespace SchemaLang

inductive NodeKind where
  | schemaFile
  | keyword
  | package
  | packageName
  | importing
  | importPath
  | setting
  | settingName
  | settingValue
  | type
  | enum
  | component
  | definitionName
  | field
  | fieldType
  | typeName
  | typeParameter
  | fieldName
  | fieldNumber
  | enumValue
  | componentId
  | data
  | event
  | command
  | typeRef
  | tag
  | namedArgument
  | fieldRef
  | arguments
  | construction
  | constructorName
  | intValue
  | decimalValue
  | boolValue
  | stringValue
  | emptyOption
  | nameRef
  | list
  | map
  | mapEntry
  | error
  deriving DecidableEq

namespace NodeKind

def label : NodeKind → String
  | schemaFile => "SCHEMA_FILE"
  | keyword => "KEYWORD"
  | package => "PACKAGE"
  | packageName => "PACKAGE_NAME"
  | importing => "IMPORT"
  | importPath => "IMPORT_FILENAME"
  | setting => "OPTION"
  | settingName => "OPTION_NAME"
  | settingValue => "OPTION_VALUE"
  | type => "TYPE"
  | enum => "ENUM"
  | component => "COMPONENT"
  | definitionName => "DEFINITION_NAME"
  | field => "FIELD"
  | fieldType => "FIELD_TYPE"
  | typeName => "TYPE_NAME"
  | typeParameter => "TYPE_PARAM_NAME"
  | fieldName => "FIELD_NAME"
  | fieldNumber => "FIELD_NUMBER"
  | enumValue => "ENUM_VALUE"
  | componentId => "COMPONENT_ID"
  | data => "DATA"
  | event => "EVENT"
  | command => "COMMAND"
  | typeRef => "TYPE_NAME_REF"
  | tag => "ANNOTATION"
  | namedArgument => "ANNOTATION_QUALIFIER"
  | fieldRef => "FIELD_REF"
  | arguments => "FIELD_ARRAY"
  | construction => "NEW_INSTANCE"
  | constructorName => "NEW_INSTANCE_NAME"
  | intValue => "PRIMITIVE_INT"
  | decimalValue => "PRIMITIVE_DOUBLE"
  | boolValue => "PRIMITIVE_BOOL"
  | stringValue => "PRIMITIVE_STRING"
  | emptyOption => "EMPTY_OPTION"
  | nameRef => "ENUM_OR_INSTANCE_REF"
  | list => "FIELD_LIST"
  | map => "FIELD_MAP"
  | mapEntry => "FIELD_MAP_ENTRY"
  | error => "ERROR"

def isReference : NodeKind → Bool
  | typeName | typeParameter | fieldType | typeRef | constructorName | nameRef | fieldRef => true
  | _ => false

end NodeKind

end SchemaLang
